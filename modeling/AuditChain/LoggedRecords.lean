/-
AuditChain/LoggedRecords.lean

What the logging handler makes of log records.

An entry takes its actor, its action and its subject from the attributes that `extra` has
given the log record, and else from the handler or the message.  Its metadata is that of the
log record, over that of the handler, over what is known of the call.

    resolveMetadata_get?    who has the last word on a key
    handler_stores          what is in the log, at any point of any run
    foreground_stores       the same, without a thread
-/
import AuditChain.Handler
import AuditChain.PyDict

namespace AuditChain

open Python HashChain Machine

namespace AuditLogHandler

/-! ### The code -/

/-- A `logging.LogRecord`, with what `logging` makes of it. -/
structure LogRecord where
  name : PyStr
  levelname : PyStr
  moduleName : PyStr
  lineno : ℤ
  funcName : Option PyStr
  /-- `record.getMessage()`. -/
  message : Except PyError PyStr
  /-- `_EXCEPTION_FORMATTER.formatException(record.exc_info)`, if there is one. -/
  exception : Option PyStr
  /-- `_iso_from_created(record.created)`. -/
  created : Except PyError PyStr
  /-- The attributes that `extra` has added. -/
  extra : PyDict

/-- `getattr(record, key, None)`, unless it is `None`. -/
def LogRecord.getattr (record : LogRecord) (key : PyStr) : Option PyVal :=
  match record.extra.get? key with
  | some .null => none
  | v => v

/-- An argument of the handler: a value, or a function of the log record. -/
inductive Setting
  | value (v : PyVal)
  | call (f : LogRecord → Except PyError PyVal)

/-- The arguments of the handler. -/
structure Options where
  actor : Option Setting := none
  metadata : Option Setting := none
  includeException : Bool := true

/-- The value for a log record. -/
def Setting.get (s : Setting) (record : LogRecord) : Except PyError PyVal :=
  match s with
  | .value v => .ok v
  | .call f => f record

/-- `data.update(items)`. -/
def update (F : FloatOps) (d items : PyDict) : PyDict :=
  items.foldl (fun d kv => PyDict.put F d kv.1 kv.2) d

variable (P : Runtime)

/-- `_resolve_actor`. -/
def resolveActor (opts : Options) (record : LogRecord) : Except PyError PyStr :=
  match record.getattr (lit "audit_actor"), opts.actor with
  | some v, _ => .ok (v.toStr P.unicode)
  | none, some s => do
    let v ← s.get record
    return v.toStr P.unicode
  | none, none => .ok record.name

/-- What is known of the call. -/
def LogRecord.call (record : LogRecord) (includeException : Bool) : PyDict :=
  [(.str (lit "logger"), .str record.name), (.str (lit "level"), .str record.levelname),
    (.str (lit "module"), .str record.moduleName), (.str (lit "line"), .int record.lineno),
    (.str (lit "func"), match record.funcName with
      | some s => .str s
      | none => .null)] ++
  match includeException, record.exception with
  | true, some text => [(.str (lit "exception"), .str text)]
  | _, _ => []

/-- The metadata of the handler, as a dictionary. -/
def Options.own (opts : Options) (record : LogRecord) : Except PyError PyDict :=
  match opts.metadata with
  | none => .ok []
  | some s => do
    let v ← s.get record
    dictOf P.floats v

/-- The metadata of the log record; anything but a mapping is passed over. -/
def LogRecord.metadata (record : LogRecord) : PyDict :=
  match record.getattr (lit "audit_metadata") with
  | some (.dict items) => items
  | _ => []

/-- `_resolve_metadata`. -/
def resolveMetadata (opts : Options) (record : LogRecord) : Except PyError PyDict := do
  let own ← opts.own P record
  return update P.floats (update P.floats (record.call opts.includeException) own) record.metadata

/-- An attribute that counts. -/
def LogRecord.truthy (record : LogRecord) (key : PyStr) : Option PyVal :=
  (record.getattr key).filter (PyVal.truthy P.floats)

/-- `_entry`. -/
def entryOf (opts : Options) (record : LogRecord) : Except PyError Entry := do
  let action ← match record.truthy P (lit "audit_action") with
    | some v => pure v
    | none => do
      let message ← record.message
      pure (.str message)
  let subject := (record.truthy P (lit "audit_subject")).getD (.str [])
  let actor ← resolveActor P opts record
  let metadata ← resolveMetadata P opts record
  let timestamp ← record.created
  return {
    actor := actor
    action := action.toStr P.unicode
    subject := subject.toStr P.unicode
    metadata := metadata
    timestamp := timestamp }

/-! ### Who has the last word -/

variable {P}

theorem same_str (F : FloatOps) (k : PyKey) (s : PyStr) :
    PyKey.same F k (.str s) = true ↔ k = .str s := by
  cases k <;> simp [PyKey.same, PyKey.position]

theorem str_same (F : FloatOps) (k : PyKey) (s : PyStr) :
    PyKey.same F (.str s) k = true ↔ k = .str s := by
  cases k <;> simp [PyKey.same, PyKey.position, eq_comm]

theorem get?_put (F : FloatOps) (k : PyKey) (v : PyVal) (s : PyStr) : ∀ d : PyDict,
    (PyDict.put F d k v).get? s = if k = .str s then some v else d.get? s
  | [] => by
    by_cases hk : k = .str s
    · simp [PyDict.put, PyDict.get?, hk]
    · have hno : (PyKey.str s == k) = false := beq_false_of_ne fun h => hk h.symm
      simp [PyDict.put, PyDict.get?, List.lookup_cons, hno, hk]
  | (k', v') :: d => by
    have ih := get?_put F k v s d
    rw [PyDict.get?, PyDict.get?] at ih
    rw [PyDict.put, PyDict.get?, PyDict.get?]
    by_cases hk : k = .str s
    · subst hk
      rw [if_pos rfl] at ih ⊢
      by_cases hsame : PyKey.same F k' (.str s) = true
      · rw [if_pos hsame, (same_str F k' s).mp hsame, List.lookup_cons_self]
      · have hno : (PyKey.str s == k') = false :=
          beq_false_of_ne fun h => hsame ((same_str F k' s).mpr h.symm)
        rw [if_neg hsame, List.lookup_cons, hno, ih]
    · rw [if_neg hk] at ih ⊢
      split
      · rename_i hsame
        -- a text is the same as no other key
        have hno : (PyKey.str s == k') = false := by
          apply beq_false_of_ne
          rintro rfl
          exact hk ((str_same F k s).mp hsame)
        rw [List.lookup_cons, List.lookup_cons, hno]
      · rw [List.lookup_cons, List.lookup_cons, ih]

/-- An update has the last word on its keys. -/
theorem get?_update (F : FloatOps) (items d : PyDict) (s : PyStr) :
    (update F d items).get? s = (items.reverse.lookup (.str s)).or (d.get? s) := by
  induction items generalizing d with
  | nil => rfl
  | cons kv items ih =>
    rw [update, List.foldl_cons, ← update, ih, get?_put, List.reverse_cons, List.lookup_append,
      Option.or_assoc]
    congr 1
    by_cases hk : kv.1 = .str s
    · rw [if_pos hk, ← hk, List.lookup_cons_self]
      rfl
    · have hno : (PyKey.str s == kv.1) = false := beq_false_of_ne fun h => hk h.symm
      rw [if_neg hk, List.lookup_cons, hno]
      rfl

/-- **Who has the last word on a key**: the log record, then the handler, and then what is
known of the call. -/
theorem resolveMetadata_get? {opts : Options} {record : LogRecord} {own metadata : PyDict}
    (hown : opts.own P record = .ok own) (h : resolveMetadata P opts record = .ok metadata)
    (key : PyStr) : metadata.get? key = (record.metadata.reverse.lookup (.str key)).or
      ((own.reverse.lookup (.str key)).or
        ((record.call opts.includeException).get? key)) := by
  rw [resolveMetadata, hown, ok_bind] at h
  rw [← Except.ok.inj h, get?_update, get?_update]

/-! ### What is in the log -/

section

variable {B : OrderedBackend} {θ ι : Type}

/-- The record says what the entry says. -/
structure Tells (e : Entry) (r : AuditRecord) : Prop where
  actor : r.actor = e.actor
  action : r.action = e.action
  subject : r.subject = e.subject
  metadata : r.metadata = e.metadata
  timestamp : e.timestamp ≠ [] → r.timestamp = e.timestamp

/-- After `append` was called with the entries, on a storage that held `start`: some of them are
stored, in that order, and the others are counted as errors. -/
structure Stored (start : List AuditRecord) (entries : List Entry) (errors : ℕ)
    (w : World P B.toStorageBackend) : Prop where
  tailOk : w.TailOk
  stored : ∃ es new, es.Sublist entries ∧ w.contents = start ++ new ∧ List.Forall₂ Tells es new ∧
    es.length + errors = entries.length

theorem tells_of_seal {log : AuditLog P} {e : Entry} {now : PyStr} {prev : Option AuditRecord}
    {r : AuditRecord} (h : log.seal (log.buildRecord e.actor e.action e.subject
      ((some e.metadata).getD []) (some e.timestamp) now prev) = .ok r) : Tells e r := by
  obtain ⟨recordHash, signature, rfl, -⟩ := seal_spec h
  refine ⟨rfl, rfl, rfl, rfl, fun hne => ?_⟩
  show timestampOr (some e.timestamp) now = e.timestamp
  rw [timestampOr, Option.getD_some, if_neg hne]

/-- **One entry** is stored, or raises and is not. -/
theorem Stored.append {start : List AuditRecord} {entries : List Entry} {errors : ℕ}
    {w : World P B.toStorageBackend} (hs : Stored start entries errors w) (e : Entry)
    (now : PyStr) :
    (∃ r w', World.append e.actor e.action e.subject (some e.metadata) (some e.timestamp) now w
        = (.ok r, w') ∧ Stored start (entries ++ [e]) errors w') ∨
      ∃ err w', World.append e.actor e.action e.subject (some e.metadata) (some e.timestamp) now w
          = (.error err, w') ∧ Stored start (entries ++ [e]) (errors + 1) w' := by
  obtain ⟨es, new, hsub, hcontents, htell, hcount⟩ := hs.stored
  rcases World.append_cases hs.tailOk e.actor e.action e.subject (some e.metadata)
      (some e.timestamp) now with ⟨r, s, hseal, happend, hcont⟩ | ⟨err, s, -, happend, hcont⟩
  · refine Or.inl ⟨r, _, happend, World.opened_tailOk _ _, es ++ [e], new ++ [r],
      hsub.append (List.Sublist.refl _), ?_, List.rel_append htell
        (List.Forall₂.cons (tells_of_seal hseal) List.Forall₂.nil), ?_⟩
    · rw [← List.append_assoc, ← hcontents]
      exact hcont
    · rw [List.length_append, List.length_append, ← hcount, List.length_singleton]
      omega
  · refine Or.inr ⟨err, _, happend, World.opened_tailOk _ _, es, new,
      hsub.trans (List.sublist_append_left _ _), hcont.trans hcontents, htell, ?_⟩
    rw [List.length_append, List.length_singleton, ← hcount]
    omega

/-- Nothing was appended. -/
theorem stored_start {w : World P B.toStorageBackend} (h : w.TailOk) : Stored w.contents [] 0 w :=
  ⟨h, [], [], List.Sublist.refl _, (List.append_nil _).symm, List.Forall₂.nil, rfl⟩

/-- What holds after the events `os`. -/
structure Recorded (resolve : ι → Except PyError Entry) (start : List AuditRecord)
    (os : List (Event θ ι)) (h : AuditLogHandler P B.toStorageBackend θ ι) : Prop where
  stored : Stored start ((appended os).map Item.entry) h.errorCount h.world
  queued : ∀ x ∈ queued os, resolve x.record = .ok x.entry
  emitting : ∀ t record entry, h.emitting t = .resolved record entry →
    resolve record = .ok entry

section

variable [DecidableEq θ] {resolve : ι → Except PyError Entry} {before : List AuditRecord}
  {os : List (Event θ ι)} {h : AuditLogHandler P B.toStorageBackend θ ι}

/-- The `emit` of a thread goes on, and the queue may get longer. -/
theorem Recorded.goto (hr : Recorded resolve before os h) {t : θ} {e : Emitting ι}
    {q : TaskQueue (Option (Item θ ι))} {os' : List (Event θ ι)} (happended : appended os' = [])
    (hqueued : ∀ x ∈ AuditLogHandler.queued os', resolve x.record = .ok x.entry)
    (he : ∀ record entry, e = .resolved record entry → resolve record = .ok entry) :
    Recorded resolve before (os ++ os') ({ h with queue := q }.goto t e) := by
  refine ⟨?_, fun x hx => ?_, fun t' record entry ht' => ?_⟩
  · rw [appended_append, happended, List.append_nil]
    exact hr.stored
  · rw [queued_append] at hx
    exact (List.mem_append.mp hx).elim (hr.queued x) (hqueued x)
  · by_cases ht : t' = t
    · subst ht
      exact he record entry ((emitting_goto_self _ _ _).symm.trans ht')
    · exact hr.emitting t' record entry ((emitting_goto_of_ne _ ht _).symm.trans ht')

omit [DecidableEq θ] in
/-- Nothing is appended. -/
theorem Recorded.same (hr : Recorded resolve before os h) {q : TaskQueue (Option (Item θ ι))}
    {worker : Worker θ ι} {closing : Closing} {closed : Bool} {os' : List (Event θ ι)}
    (happended : appended os' = []) (hqueued : AuditLogHandler.queued os' = []) :
    Recorded resolve before (os ++ os')
      { h with queue := q, worker := worker, closing := closing, closed := closed } := by
  refine ⟨?_, ?_, hr.emitting⟩
  · rw [appended_append, happended, List.append_nil]
    exact hr.stored
  · rw [queued_append, hqueued, List.append_nil]
    exact hr.queued

theorem Recorded.emitNext (hr : Recorded resolve before os h) (t : θ) :
    Recorded resolve before (os ++ (h.emitNext resolve t).1) (h.emitNext resolve t).2 := by
  rw [AuditLogHandler.emitNext]
  cases hphase : h.emitting t with
  | returned => exact hr.same rfl rfl
  | checked record =>
    dsimp only
    cases hentry : resolve record with
    | error e => exact hr.goto rfl (by simp [AuditLogHandler.queued]) (by simp)
    | ok entry =>
      refine hr.goto rfl (by simp [AuditLogHandler.queued]) fun record' entry' heq => ?_
      obtain ⟨rfl, rfl⟩ := Emitting.resolved.inj heq
      exact hentry
  | resolved record entry =>
    refine hr.goto rfl (fun x hx => ?_) (by simp)
    obtain rfl : x = ⟨t, record, entry⟩ := List.mem_singleton.mp hx
    exact hr.emitting t record entry hphase

omit [DecidableEq θ] in
theorem Recorded.write (hr : Recorded resolve before os h) (x : Item θ ι) (now : PyStr)
    {worker : Worker θ ι} :
    Recorded resolve before (os ++ (h.write x now).1)
      { (h.write x now).2 with worker := worker } := by
  have happended : ∀ os' : List (Event θ ι), appended os' = [x] →
      (appended (os ++ os')).map Item.entry = (appended os).map Item.entry ++ [x.entry] := by
    intro os' hos'
    rw [appended_append, hos', List.map_append]
    rfl
  have hqueued : ∀ os' : List (Event θ ι), AuditLogHandler.queued os' = [] →
      ∀ y ∈ AuditLogHandler.queued (os ++ os'), resolve y.record = .ok y.entry := by
    intro os' hos' y hy
    rw [queued_append, hos', List.append_nil] at hy
    exact hr.queued y hy
  rcases hr.stored.append x.entry now with ⟨r, w', happend, hnext⟩ | ⟨e, w', happend, hnext⟩ <;>
    rw [AuditLogHandler.write, happend]
  · exact ⟨by rw [happended _ rfl]; exact hnext, hqueued _ rfl, hr.emitting⟩
  · exact ⟨by rw [happended _ rfl]; exact hnext, hqueued _ rfl, hr.emitting⟩

omit [DecidableEq θ] in
theorem Recorded.work (hr : Recorded resolve before os h) (now : PyStr) :
    Recorded resolve before (os ++ (h.work now).1) (h.work now).2 := by
  rw [AuditLogHandler.work]
  cases h.worker with
  | getting =>
    dsimp only
    rcases h.queue.get with _ | ⟨_ | x, q⟩
    · exact hr.same rfl rfl
    · exact hr.same rfl rfl
    · exact hr.same rfl rfl
  | writing x => exact hr.write x now
  | finishing => exact hr.same rfl rfl
  | stopping => exact hr.same rfl rfl
  | stopped => exact hr.same rfl rfl

/-- **One action.** -/
theorem Recorded.step (hr : Recorded resolve before os h) (a : Action θ ι) :
    Recorded resolve before (os ++ (a.step resolve h).1) (a.step resolve h).2 := by
  cases a with
  | emit t record =>
    rw [Action.step]
    split
    · rw [AuditLogHandler.emit]
      split
      · exact hr.same rfl rfl
      · exact hr.goto rfl (by simp [AuditLogHandler.queued]) (by simp)
    · exact hr.same rfl rfl
  | advance t => exact hr.emitNext t
  | work now => exact hr.work now
  | close =>
    rw [Action.step, closeNext]
    cases h.closing with
    | flushing | joining =>
      dsimp only
      split
      · exact hr.same rfl rfl
      · exact hr.same rfl rfl
    | idle | flushed | joined | returned => exact hr.same rfl rfl

theorem recorded_run (resolve : ι → Except PyError Entry) (actions : List (Action θ ι))
    {w : World P B.toStorageBackend} (hw : w.TailOk) :
    Recorded resolve w.contents (runHandler resolve actions (start w)).1
      (runHandler resolve actions (start w)).2 := by
  have hrun : Recorded resolve w.contents ([] ++ (runHandler resolve actions (start w)).1)
      (runHandler resolve actions (start w)).2 :=
    run_preserves (fun _ _ => True) (Recorded resolve w.contents) (fun a _ _ _ hr => hr.step a)
      actions (start w) [] (stepsOk_of_forall (fun _ _ _ => trivial) _)
      ⟨stored_start hw, by simp [AuditLogHandler.queued], nofun⟩
  rwa [List.nil_append] at hrun

/-- **What is in the log**, at any point of any run: behind what was there, in the order of the
queue and of each thread, what log records were made into, each of them once.  What `append`
was called with is from the queue, in its order; what of it is not there is counted in
`error_count`, and after a `flush` it was called with all that was queued. -/
theorem handler_stores (opts : Options) (actions : List (Action θ LogRecord))
    {w : World P B.toStorageBackend} (hw : w.TailOk) :
    (∃ xs new, xs.Sublist (appended (runHandler (entryOf P opts) actions (start w)).1) ∧
      (runHandler (entryOf P opts) actions (start w)).2.world.contents = w.contents ++ new ∧
      List.Forall₂ (fun (x : Item θ LogRecord) r =>
        ∃ e, entryOf P opts x.record = .ok e ∧ Tells e r) xs new ∧
      xs.length + (runHandler (entryOf P opts) actions (start w)).2.errorCount
        = (appended (runHandler (entryOf P opts) actions (start w)).1).length ∧
      ∀ t, ((xs.map Item.source).filter (·.1 = t)).Sublist
        ((emitted (runHandler (entryOf P opts) actions (start w)).1).filter (·.1 = t))) ∧
    (appended (runHandler (entryOf P opts) actions (start w)).1).Sublist
      (queued (runHandler (entryOf P opts) actions (start w)).1) ∧
    ((runHandler (entryOf P opts) actions (start w)).2.queue.unfinished = 0 →
      appended (runHandler (entryOf P opts) actions (start w)).1
        = queued (runHandler (entryOf P opts) actions (start w)).1) := by
  have hrun := recorded_run (entryOf P opts) actions hw
  have hinv := inv_run (entryOf P opts) actions w
  have hflush := written_of_flushed (entryOf P opts) actions w
  generalize runHandler (entryOf P opts) actions (start w) = run at hrun hinv hflush
  have hqueued : (appended run.1).Sublist (queued run.1) := by
    rw [hinv.queue]
    exact List.sublist_append_left _ _
  refine ⟨?_, hqueued, hflush⟩
  obtain ⟨es, new, hsub, hcontents, htell, hcount⟩ := hrun.stored.stored
  obtain ⟨xs, hxs, rfl⟩ := List.sublist_map_iff.mp hsub
  refine ⟨xs, new, hxs, hcontents, ?_, ?_, fun t => ?_⟩
  · rw [List.forall₂_map_left_iff] at htell
    have hmem : ∀ x ∈ xs, entryOf P opts x.record = .ok x.entry := fun x hx =>
      hrun.queued x (hqueued.subset (hxs.subset hx))
    have hboth := (List.forall₂_and_left xs new).mpr ⟨hmem, htell⟩
    exact hboth.imp fun _ _ h => ⟨_, h⟩
  · rwa [List.length_map, List.length_map] at hcount
  · rw [hinv.threads t]
    have hsettled := (((hxs.trans hqueued).map Item.source).trans (queued_sublist run.1)).filter
      (fun p => decide (p.1 = t))
    exact hsettled.trans (List.sublist_append_left _ _)

end

end

/-- An approval, or a message that cannot be formatted. -/
def sampleRecord (fine : Bool) : LogRecord where
  name := lit "app"
  levelname := lit "INFO"
  moduleName := lit "invoices"
  lineno := 7
  funcName := some (lit "approve")
  message := if fine then .ok (lit "invoice.approve 12")
    else .error (typeError (lit "not all arguments converted during string formatting"))
  exception := none
  created := .ok (lit "2024-01-01T00:00:00.000000Z")
  extra := [(.str (lit "audit_actor"), .str (lit "alice"))]

/-- Two threads log, and one of the messages cannot be formatted. -/
def sampleEmits : List (Action Bool LogRecord) :=
  [.emit true (sampleRecord true), .emit false (sampleRecord false), .advance true, .advance false,
    .advance true, .work [], .work [], .work []]

theorem handler_stores_sample : ∃ xs new,
    xs.Sublist (queued (runHandler (entryOf referenceRuntime {}) sampleEmits
      (start (inMemory plainLog))).1) ∧
    (runHandler (entryOf referenceRuntime {}) sampleEmits
      (start (inMemory plainLog))).2.world.contents = new ∧
    List.Forall₂ (fun (x : Item Bool LogRecord) r =>
      ∃ e, entryOf referenceRuntime {} x.record = .ok e ∧ Tells e r) xs new := by
  obtain ⟨⟨xs, new, hsub, hcontents, htell, -⟩, -, hflush⟩ := handler_stores
    (P := referenceRuntime) {} sampleEmits (w := inMemory plainLog) (tailOk_of_new new_default _)
  rw [hflush (by decide +kernel)] at hsub
  exact ⟨xs, new, hsub, hcontents, htell⟩

/-! ### Without a thread -/

/-- A handler with `background=False`: `logging` lets one thread at a time into `emit`. -/
structure Foreground (P : Runtime) (B : StorageBackend) where
  closed : Bool
  errorCount : ℕ
  lastError : Option PyError
  world : World P B

/-- What a call comes to. -/
inductive Outcome
  /-- `handleError` was given the log record. -/
  | reported (record : LogRecord) (e : PyError)
  /-- `emit` raised. -/
  | raised (record : LogRecord) (e : PyError)
  | stored (record : LogRecord) (r : AuditRecord)
  /-- `append` raised. -/
  | failed (record : LogRecord) (e : PyError)
  /-- `close` returned, after closing the log had raised. -/
  | closed (failure : Option PyError)

/-- A call of the handler. -/
inductive Use
  /-- `emit`, inside of a running event loop or not. -/
  | emit (record : LogRecord) (inLoop : Bool) (now : PyStr)
  /-- `close`, with what closing the log raises, if the handler is to close it. -/
  | close (failure : Option PyError)

/-- `RuntimeError`, in a running event loop. -/
def insideLoop : PyError :=
  ⟨.user (lit "RuntimeError"), lit "AuditLogHandler(background=False) cannot write from inside a "
    ++ lit "running event loop; use background=True"⟩

namespace Foreground

/-- `emit`, with `background=False`. -/
def emit {B : StorageBackend} (opts : Options) (record : LogRecord) (inLoop : Bool) (now : PyStr)
    (h : Foreground P B) : Outcome × Foreground P B :=
  if h.closed then (.reported record handlerClosed, h)
  else
    match entryOf P opts record with
    | .error e => (.reported record e, h)
    | .ok entry =>
      if inLoop then (.raised record insideLoop, h)
      else
        match World.append entry.actor entry.action entry.subject (some entry.metadata)
            (some entry.timestamp) now h.world with
        | (.ok r, w) => (.stored record r, { h with world := w })
        | (.error e, w) => (.failed record e,
            { h with world := w, errorCount := h.errorCount + 1, lastError := some e })

/-- `close`, with `background=False`. -/
def close {B : StorageBackend} (failure : Option PyError) (h : Foreground P B) :
    Outcome × Foreground P B :=
  if h.closed then (.closed none, h)
  else
    match failure with
    | none => (.closed none, { h with closed := true })
    | some e => (.closed (some e),
        { h with closed := true, errorCount := h.errorCount + 1, lastError := some e })

/-- One call. -/
def call {B : StorageBackend} (opts : Options) (u : Use) (h : Foreground P B) :
    Outcome × Foreground P B :=
  match u with
  | .emit record inLoop now => h.emit opts record inLoop now
  | .close failure => h.close failure

/-- The same as a step of a machine. -/
def step {B : StorageBackend} (opts : Options) (u : Use) (h : Foreground P B) :
    List Outcome × Foreground P B :=
  ([(h.call opts u).1], (h.call opts u).2)

/-- The handler when it is made. -/
def start {B : StorageBackend} (w : World P B) : Foreground P B := ⟨false, 0, none, w⟩

end Foreground

def Use.isClose : Use → Bool
  | .close _ => true
  | .emit .. => false

/-- The record that was stored. -/
def Outcome.stored? : Outcome → Option AuditRecord
  | .stored _ r => some r
  | _ => none

/-- Is it counted in `error_count`? -/
def Outcome.counts : Outcome → Bool
  | .failed .. | .closed (some _) => true
  | _ => false

/-- What is to become of an entry, on a log that holds `stored`: it is sealed behind that and
stored, or it cannot be sealed. -/
def Outcome.Writes (log : AuditLog P) (stored : List AuditRecord) (record : LogRecord)
    (entry : Entry) (now : PyStr) (o : Outcome) : Prop :=
  let sealed := log.seal (log.buildRecord entry.actor entry.action entry.subject entry.metadata
    (some entry.timestamp) now stored.getLast?)
  (∃ r, sealed = .ok r ∧ o = .stored record r ∧ Tells entry r) ∨
    ∃ e, sealed = .error e ∧ o = .failed record e

/-- What is to become of a call, where `closed` says whether the handler was closed before it
and `stored` is what the log holds. -/
def Outcome.Answers (opts : Options) (log : AuditLog P) (closed : Bool)
    (stored : List AuditRecord) (o : Outcome) : Use → Prop
  | .close failure => o = .closed (if closed then none else failure)
  | .emit record inLoop now =>
    (closed = true → o = .reported record handlerClosed) ∧
      (closed = false → ∀ e, entryOf P opts record = .error e → o = .reported record e) ∧
      (closed = false → ∀ entry, entryOf P opts record = .ok entry →
        (inLoop = true → o = .raised record insideLoop) ∧
          (inLoop = false → o.Writes log stored record entry now))

/-- After the calls `uses` with the outcomes `os`, on a log that held `before`. -/
structure Accounted {B : OrderedBackend} (opts : Options) (log : AuditLog P)
    (before : List AuditRecord) (uses : List Use) (os : List Outcome)
    (h : Foreground P B.toStorageBackend) : Prop where
  tailOk : h.world.TailOk
  sameKeys : SameKeys log h.world.log
  contents : h.world.contents = before ++ os.filterMap Outcome.stored?
  errors : h.errorCount = os.countP Outcome.counts
  closed : h.closed = uses.any Use.isClose
  length : os.length = uses.length
  answers : ∀ (i : ℕ) (u : Use) (o : Outcome), uses[i]? = some u → os[i]? = some o →
    o.Answers opts log ((uses.take i).any Use.isClose)
      (before ++ (os.take i).filterMap Outcome.stored?) u

section

variable {B : OrderedBackend} {opts : Options} {log : AuditLog P} {before : List AuditRecord}
  {uses : List Use} {os : List Outcome} {h : Foreground P B.toStorageBackend}

/-- One more call. -/
theorem Accounted.add (ha : Accounted opts log before uses os h) {u : Use} {o : Outcome}
    {h' : Foreground P B.toStorageBackend} (htail : h'.world.TailOk)
    (hkeys : SameKeys log h'.world.log)
    (hcontents : h'.world.contents = h.world.contents ++ o.stored?.toList)
    (herrors : h'.errorCount = h.errorCount + if o.counts then 1 else 0)
    (hclosed : h'.closed = (h.closed || u.isClose))
    (hanswers : o.Answers opts log h.closed h.world.contents u) :
    Accounted opts log before (uses ++ [u]) (os ++ [o]) h' := by
  refine ⟨htail, hkeys, ?_, ?_, ?_, ?_, fun i u' o' hu ho => ?_⟩
  · rw [hcontents, ha.contents, List.filterMap_append, List.append_assoc]
    cases o <;> rfl
  · rw [herrors, ha.errors, List.countP_append, List.countP_singleton]
  · rw [hclosed, ha.closed, List.any_append, List.any_cons, List.any_nil, Bool.or_false]
  · rw [List.length_append, List.length_append, ha.length]
    rfl
  · rcases Nat.lt_or_ge i uses.length with hi | hi
    · -- an earlier call
      rw [List.getElem?_append_left hi] at hu
      rw [List.getElem?_append_left (ha.length ▸ hi)] at ho
      rw [List.take_append_of_le_length hi.le, List.take_append_of_le_length (ha.length ▸ hi.le)]
      exact ha.answers i u' o' hu ho
    · -- the last one
      rw [List.getElem?_append_right hi] at hu
      rw [List.getElem?_append_right (ha.length ▸ hi), ha.length] at ho
      obtain ⟨hlt, -⟩ := List.getElem?_eq_some_iff.mp hu
      obtain rfl : i = uses.length := by
        rw [List.length_singleton] at hlt
        omega
      rw [Nat.sub_self] at hu ho
      obtain rfl := Option.some.inj hu
      obtain rfl := Option.some.inj ho
      rw [List.take_left, ← ha.length, List.take_left, ← ha.closed, ← ha.contents]
      exact hanswers

/-- An `emit` that does not write. -/
theorem Accounted.pass (ha : Accounted opts log before uses os h) {record : LogRecord}
    {inLoop : Bool} {now : PyStr} {o : Outcome} (hstored : o.stored? = none)
    (hcounts : o.counts = false)
    (hanswers : o.Answers opts log h.closed h.world.contents (.emit record inLoop now)) :
    Accounted opts log before (uses ++ [.emit record inLoop now]) (os ++ [o]) h :=
  ha.add ha.tailOk ha.sameKeys (by rw [hstored]; exact (List.append_nil _).symm)
    (by rw [hcounts]; rfl) (Bool.or_false _).symm hanswers

/-- **One `emit`.** -/
theorem Accounted.emit (ha : Accounted opts log before uses os h) (record : LogRecord)
    (inLoop : Bool) (now : PyStr) :
    Accounted opts log before (uses ++ [.emit record inLoop now])
      (os ++ [(h.emit opts record inLoop now).1]) (h.emit opts record inLoop now).2 := by
  unfold Foreground.emit
  cases hclosed : h.closed with
  | true =>
    rw [if_pos rfl]
    exact ha.pass rfl rfl ⟨fun _ => rfl, fun h => by simp [hclosed] at h,
      fun h => by simp [hclosed] at h⟩
  | false =>
    rw [if_neg Bool.false_ne_true]
    have hopen : ¬h.closed = true := by simp [hclosed]
    cases hentry : entryOf P opts record with
    | error e =>
      refine ha.pass rfl rfl ⟨fun h => absurd h hopen, fun _ e' he' => ?_, fun _ entry he' => ?_⟩
      · rw [Except.error.inj (hentry.symm.trans he')]
      · cases hentry.symm.trans he'
    | ok entry =>
      -- what remains to be shown is the same for every outcome
      have hanswers : ∀ o : Outcome, (inLoop = true → o = .raised record insideLoop) →
          (inLoop = false → o.Writes log h.world.contents record entry now) →
            o.Answers opts log h.closed h.world.contents (.emit record inLoop now) := by
        intro o hloop hwrites
        refine ⟨fun h => absurd h hopen, fun _ e' he' => ?_, fun _ entry' he' => ?_⟩
        · cases hentry.symm.trans he'
        · obtain rfl := Except.ok.inj (hentry.symm.trans he')
          exact ⟨hloop, hwrites⟩
      cases hloop : inLoop with
      | true =>
        subst hloop
        exact ha.pass rfl rfl (hanswers _ (fun _ => rfl) (by simp))
      | false =>
        subst hloop
        obtain ⟨last, inited, hlog⟩ := ha.sameKeys
        have hkeys : ∀ s, SameKeys log
            (World.opened h.world.log s : World P B.toStorageBackend).log := fun s =>
          ⟨_, true, by rw [World.opened, hlog, withTail_withTail]⟩
        rcases World.append_cases ha.tailOk entry.actor entry.action entry.subject
            (some entry.metadata) (some entry.timestamp) now with
          ⟨r, s, hseal, happend, hcont⟩ | ⟨e, s, hseal, happend, hcont⟩ <;>
          rw [Option.getD_some, hlog, withTail_seal, withTail_buildRecord] at hseal
        · simp only [Bool.false_eq_true, if_false, happend]
          exact ha.add (World.opened_tailOk _ _) (hkeys s) hcont rfl (by rw [hclosed]; rfl)
            (hanswers _ (by simp) fun _ => Or.inl ⟨r, hseal, rfl, tells_of_seal hseal⟩)
        · simp only [Bool.false_eq_true, if_false, happend]
          exact ha.add (World.opened_tailOk _ _) (hkeys s)
            (hcont.trans (List.append_nil _).symm) rfl (by rw [hclosed]; rfl)
            (hanswers _ (by simp) fun _ => Or.inr ⟨e, hseal, rfl⟩)

/-- **One `close`.** -/
theorem Accounted.close (ha : Accounted opts log before uses os h) (failure : Option PyError) :
    Accounted opts log before (uses ++ [.close failure]) (os ++ [(h.close failure).1])
      (h.close failure).2 := by
  unfold Foreground.close
  cases hclosed : h.closed with
  | true =>
    rw [if_pos rfl]
    exact ha.add ha.tailOk ha.sameKeys (List.append_nil _).symm rfl
      (hclosed.trans (Bool.or_true _).symm) (by rw [hclosed]; rfl)
  | false =>
    rw [if_neg Bool.false_ne_true]
    cases failure <;>
      exact ha.add ha.tailOk ha.sameKeys (List.append_nil _).symm rfl (Bool.or_true _).symm
        (by rw [hclosed]; rfl)

/-- One call. -/
theorem Accounted.step (ha : Accounted opts log before uses os h) (u : Use) :
    Accounted opts log before (uses ++ [u]) (os ++ (Foreground.step opts u h).1)
      (Foreground.step opts u h).2 := by
  cases u with
  | emit record inLoop now => exact ha.emit record inLoop now
  | close failure => exact ha.close failure

end

/-- **Every call is accounted for.**  Each has one outcome, in their order.  An `emit` reports
its log record to a closed handler, or because there is no entry for it; it raises inside of a
running event loop; else its entry is sealed behind what the log holds then and stored, or
counted because it cannot be sealed.  Nothing else gets into the log. -/
theorem foreground_stores {B : OrderedBackend} (opts : Options) (uses : List Use)
    {w : World P B.toStorageBackend} (hw : w.TailOk) :
    Accounted opts w.log w.contents uses
      (run (Foreground.step opts) uses (Foreground.start w)).1
      (run (Foreground.step opts) uses (Foreground.start w)).2 :=
  run_prefixes (Accounted opts w.log w.contents) uses
    ⟨hw, SameKeys.refl _, (List.append_nil _).symm, rfl, rfl, rfl, by simp⟩
    fun _ u _ _ _ _ ha => ha.step u

/-- One approval in the open, one inside of a running event loop, and one after `close`. -/
def sampleUses : List Use :=
  [.emit (sampleRecord true) false [], .emit (sampleRecord true) true [], .close none,
    .emit (sampleRecord true) false []]

theorem foreground_stores_sample : Accounted (B := memoryBackend) {} plainLog [] sampleUses
    (run (Foreground.step {}) sampleUses (Foreground.start (inMemory plainLog))).1
    (run (Foreground.step {}) sampleUses (Foreground.start (inMemory plainLog))).2 :=
  foreground_stores {} sampleUses (tailOk_of_new new_default _)

end AuditLogHandler

end AuditChain
