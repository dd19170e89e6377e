/-
AuditChain/FailedWrites.lean

A storage that fails.

`FallibleBackend` is a backend that inherits `append_many`, so a batch is
written one record at a time, and whose `append` may raise at any call; it then
stores nothing.  A log remembers its tail in memory and updates it after the
whole call, so a batch that fails half-way leaves records behind that the log
does not know of, and the next record repeats their numbers.

    exec_cases              what a call on such a storage can do
    failed_writes_keep      nothing is broken in runs in which no batch fails half-way
-/
import AuditChain.Rotation

namespace AuditChain

open Python HashChain Machine

/-! ### The storage -/

/-- A storage whose `append` may raise, and then leaves the records as they were. -/
structure FallibleBackend where
  State : Type
  init : Operation PyError State Unit
  append : AuditRecord → Operation PyError State Unit
  load : Operation PyError State (List AuditRecord)
  contents : State → List AuditRecord
  init_ok : ∀ s, (init s).1 = .ok ()
  init_contents : ∀ s, contents (init s).2 = contents s
  append_ok : ∀ r s, (append r s).1 = .ok () → contents (append r s).2 = contents s ++ [r]
  append_error : ∀ r s e, (append r s).1 = .error e → contents (append r s).2 = contents s
  load_ok : ∀ s, (load s).1 = .ok (contents s)
  load_contents : ∀ s, contents (load s).2 = contents s

namespace FallibleBackend

variable (F : FallibleBackend)

/-- `StorageBackend.append_many`: one by one. -/
def appendMany : List AuditRecord → Operation PyError F.State Unit
  | [] => pure ()
  | r :: rs => do
    F.append r
    appendMany rs

/-- `StorageBackend.load_last`. -/
def loadLast : Operation PyError F.State (Option AuditRecord) := do
  let records ← F.load
  return records.getLast?

/-- The storage, as a log uses it. -/
abbrev toStorageBackend : StorageBackend where
  State := F.State
  init := F.init
  append := F.append
  appendMany := F.appendMany
  load := F.load
  loadLast := F.loadLast

variable {F}

/-- **A batch** is stored whole, or up to the first record that is refused. -/
theorem appendMany_cases (rs : List AuditRecord) (s : F.State) :
    ((F.appendMany rs s).1 = .ok () ∧ F.contents (F.appendMany rs s).2 = F.contents s ++ rs) ∨
      ∃ e, (F.appendMany rs s).1 = .error e ∧ ∃ done r rest, rs = done ++ r :: rest ∧
        F.contents (F.appendMany rs s).2 = F.contents s ++ done ∧
          (done ≠ [] → ∃ r' rest', rs = r' :: rest' ∧ (F.append r' s).1 = .ok ()) := by
  induction rs generalizing s with
  | nil => exact Or.inl ⟨rfl, by rw [appendMany, Operation.pure_apply, List.append_nil]⟩
  | cons r rs ih =>
    cases hr : F.append r s with
    | mk res s' =>
    cases res with
    | error e =>
      rw [appendMany, Operation.bind_error hr]
      have hcont := F.append_error r s e (by rw [hr])
      rw [hr] at hcont
      exact Or.inr ⟨e, rfl, [], r, rs, rfl, by rw [hcont, List.append_nil], by simp⟩
    | ok u =>
      rw [appendMany, Operation.bind_ok hr]
      have hcont := F.append_ok r s (by rw [hr])
      rw [hr] at hcont
      rcases ih s' with ⟨hok, hall⟩ | ⟨e, herr, done, r', rest, hsplit, hdone, -⟩
      · exact Or.inl ⟨hok, by rw [hall, hcont, List.append_assoc, List.singleton_append]⟩
      · refine Or.inr ⟨e, herr, r :: done, r', rest, by rw [hsplit, List.cons_append], ?_, ?_⟩
        · rw [hdone, hcont, List.append_assoc, List.singleton_append]
        · exact fun _ => ⟨r, rs, rfl, by rw [hr]⟩

variable (F) in
/-- The storage takes the whole batch, or refuses its first record. -/
def TakesWhole (rs : List AuditRecord) (s : F.State) : Prop :=
  ∀ e, (F.appendMany rs s).1 = .error e →
    ∃ r rest e', rs = r :: rest ∧ (F.append r s).1 = .error e'

end FallibleBackend

/-! ### The operations -/

variable {P : Runtime}

theorem Follows.of_append {prev : Option AuditRecord} {rs rest : List AuditRecord}
    (h : Follows prev (rs ++ rest)) : Follows prev rs := by
  induction rs generalizing prev with
  | nil => trivial
  | cons r rs ih => exact ⟨h.1, h.2.1, ih h.2.2⟩

namespace World

variable {F : FallibleBackend}

/-- The stored records. -/
def stored (w : World P F.toStorageBackend) : List AuditRecord := F.contents w.store

/-- The record that the next one is built on. -/
def tail (w : World P F.toStorageBackend) : Option AuditRecord :=
  if w.log.inited then w.log.last else w.stored.getLast?

/-- The world in which `log` is open on the storage `s`, with this tail. -/
def atTail (log : AuditLog P) (last : Option AuditRecord) (s : F.State) :
    World P F.toStorageBackend :=
  ⟨log.withTail last true, s⟩

theorem tail_atTail (log : AuditLog P) (last : Option AuditRecord) (s : F.State) :
    (atTail log last s).tail = last := rfl

theorem ensureInited_tail (w : World P F.toStorageBackend) :
    ∃ s, ensureInited w = (.ok (), atTail w.log w.tail s) ∧ F.contents s = w.stored := by
  by_cases hinit : w.log.inited = true
  · have hlog : w.log.withTail w.tail true = w.log := by
      rw [tail, if_pos hinit, ← hinit, withTail_self]
    refine ⟨w.store, ?_, rfl⟩
    rw [ensureInited_of_inited hinit, atTail, hlog]
  · refine ⟨(F.load (F.init w.store).2).2, ?_, ?_⟩
    · rw [ensureInited_of_not_inited hinit, init,
        Operation.bind_ok (storage_ok (F.init_ok w.store)),
        Operation.bind_ok (storage_ok (F.load_ok _)), modifyLog, Operation.modify_apply]
      simp only [atTail, AuditLog.withTail, tail, if_neg hinit, stored, F.init_contents]
    · rw [F.load_contents, F.init_contents]
      rfl

theorem refreshTail_unshared {log : AuditLog P} (h : log.shared = false)
    (last : Option AuditRecord) (s : F.State) :
    refreshTail (atTail log last s) = (.ok (), atTail log last s) := by
  have hsh : ¬(atTail log last s : World P F.toStorageBackend).log.shared = true := by
    rw [show (atTail log last s : World P F.toStorageBackend).log.shared = log.shared from rfl, h]
    simp
  exact refreshTail_of_not_shared hsh

/-- **append** on a storage that may fail. -/
theorem append_fallible {w : World P F.toStorageBackend} (h : w.log.shared = false)
    (actor action subject : PyStr) (metadata : Option PyDict) (timestamp : Option PyStr)
    (now : PyStr) :
    (∃ r s, w.log.seal (w.log.buildRecord actor action subject (metadata.getD []) timestamp now
          w.tail) = .ok r ∧
        append actor action subject metadata timestamp now w = (.ok r, atTail w.log (some r) s) ∧
          F.contents s = w.stored ++ [r]) ∨
      ∃ e s, append actor action subject metadata timestamp now w
          = (.error e, atTail w.log w.tail s) ∧ F.contents s = w.stored := by
  obtain ⟨s, hs, hc⟩ := ensureInited_tail w
  have hseal : (atTail w.log w.tail s).log.seal ((atTail w.log w.tail s).log.buildRecord actor
      action subject (metadata.getD []) timestamp now (atTail w.log w.tail s).log.last)
      = w.log.seal (w.log.buildRecord actor action subject (metadata.getD []) timestamp now
          w.tail) := rfl
  rw [append, Operation.bind_ok hs, Operation.bind_ok (refreshTail_unshared h _ _),
    Operation.bind_ok (Operation.get_apply _), hseal]
  cases hr : w.log.seal (w.log.buildRecord actor action subject (metadata.getD []) timestamp now
      w.tail) with
  | error e => exact Or.inr ⟨e, s, by rw [Operation.bind_error (Operation.ofExcept_apply _ _)], hc⟩
  | ok r =>
    rw [Operation.bind_ok (Operation.ofExcept_apply _ _)]
    cases hres : (F.append r s).1 with
    | error e =>
      right
      refine ⟨e, (F.append r s).2, ?_, by rw [F.append_error r s e hres, hc]⟩
      rw [Operation.bind_error (storage_error hres)]
      rfl
    | ok u =>
      left
      refine ⟨r, (F.append r s).2, rfl, ?_, by rw [F.append_ok r s hres, hc]⟩
      rw [Operation.bind_ok (storage_ok hres), modifyLog,
        Operation.bind_ok (Operation.modify_apply _ _), Operation.pure_apply]
      rfl

/-- **append_many** on a storage that may fail: all records, or some of them and an
exception, with the old tail. -/
theorem appendMany_fallible {w : World P F.toStorageBackend} (h : w.log.shared = false)
    (entries : List BatchEntry) (clock : ℕ → PyStr) :
    (∃ rs s, w.log.sealMany entries clock w.tail = .ok rs ∧
        appendMany entries clock w = (.ok rs, atTail w.log (rs.getLast?.or w.tail) s) ∧
          F.contents s = w.stored ++ rs) ∨
      ∃ e s done, appendMany entries clock w = (.error e, atTail w.log w.tail s) ∧
        F.contents s = w.stored ++ done ∧ (done ≠ [] → ∃ rest,
          w.log.sealMany entries clock w.tail = .ok (done ++ rest) ∧
            ¬F.TakesWhole (done ++ rest) (ensureInited w).2.store) := by
  obtain ⟨s, hs, hc⟩ := ensureInited_tail w
  have hseal : (atTail w.log w.tail s).log.sealMany entries clock (atTail w.log w.tail s).log.last
      = w.log.sealMany entries clock w.tail := withTail_sealMany _ _ _ _ _ _
  rw [appendMany, Operation.bind_ok hs, Operation.bind_ok (refreshTail_unshared h _ _),
    Operation.bind_ok (Operation.get_apply _), hseal]
  cases hrs : w.log.sealMany entries clock w.tail with
  | error e =>
    exact Or.inr ⟨e, s, [], by rw [Operation.bind_error (Operation.ofExcept_apply _ _)],
      by rw [hc, List.append_nil], by simp⟩
  | ok rs =>
    rw [Operation.bind_ok (Operation.ofExcept_apply _ _)]
    by_cases hnil : rs = []
    -- an empty batch is not handed to the storage
    · left
      rw [hnil]
      exact ⟨[], s, rfl, rfl, by rw [hc, List.append_nil]⟩
    rw [if_neg (by simpa using hnil)]
    rcases F.appendMany_cases rs s with
      ⟨hok, hcont⟩ | ⟨e, herr, done, r, rest, hsplit, hcont, hwhole⟩
    · left
      refine ⟨rs, (F.appendMany rs s).2, rfl, ?_, by rw [hcont, hc]⟩
      obtain ⟨r, hr⟩ : ∃ r, rs.getLast? = some r := ⟨_, List.getLast?_eq_some_getLast hnil⟩
      rw [Operation.bind_ok (storage_ok hok), modifyLog,
        Operation.bind_ok (Operation.modify_apply _ _), Operation.pure_apply, hr]
      rfl
    · right
      refine ⟨e, (F.appendMany rs s).2, done, ?_, by rw [hcont, hc], fun hne => ?_⟩
      · rw [Operation.bind_error (storage_error herr)]
        rfl
      · refine ⟨r :: rest, by rw [hsplit], ?_⟩
        rw [hs, ← hsplit]
        intro htakes
        obtain ⟨r₁, rest₁, e₁, h₁, herr₁⟩ := htakes e herr
        obtain ⟨r₂, rest₂, h₂, hok₂⟩ := hwhole hne
        obtain ⟨rfl, -⟩ := List.cons.inj (h₁.symm.trans h₂)
        exact Except.noConfusion rfl rfl (heq_of_eq (herr₁.symm.trans hok₂))

/-- **rotate** on a storage that may fail. -/
theorem rotate_fallible {w : World P F.toStorageBackend} (h : w.log.shared = false)
    (newSealKey : Bytes) (newKeyId actor now : PyStr) :
    (∃ hlong r s, WrittenBy w.log r ∧ Follows w.tail [r] ∧
        rotate newSealKey newKeyId actor now w =
          (.ok r, atTail (w.log.withKey newSealKey newKeyId hlong) (some r) s) ∧
            F.contents s = w.stored ++ [r]) ∨
      (∃ e s, rotate newSealKey newKeyId actor now w = (.error e, atTail w.log w.tail s) ∧
        F.contents s = w.stored) ∨
      rotate newSealKey newKeyId actor now w = (.error shortKey, w) := by
  by_cases hlong : MIN_KEY_LENGTH ≤ newSealKey.length
  swap
  · right; right
    rw [rotate, dif_neg hlong, Operation.raise_apply]
  obtain ⟨s₁, hs₁, hc₁⟩ := ensureInited_tail w
  have hcases := append_fallible (w := atTail w.log w.tail s₁) h actor (lit "key.rotate")
    (lit "key:" ++ newKeyId)
    (some ((atTail w.log w.tail s₁ : World P F.toStorageBackend).log.rotationMetadata newKeyId))
    none now
  rw [tail_atTail, show (atTail w.log w.tail s₁).stored = F.contents s₁ from rfl, hc₁] at hcases
  rw [rotate, dif_pos hlong, Operation.bind_ok hs₁, Operation.bind_ok (Operation.get_apply _)]
  rcases hcases with ⟨r, s, hseal, happend, hcont⟩ | ⟨e, s, happend, hcont⟩
  · left
    have hsealed : WrittenBy w.log r ∧ Follows w.tail [r] := written_of_seal hseal
    obtain ⟨hwritten, hfollows⟩ := hsealed
    refine ⟨hlong, r, s, hwritten, hfollows, ?_, hcont⟩
    rw [Operation.bind_ok happend, modifyLog, Operation.bind_ok (Operation.modify_apply _ _),
      Operation.pure_apply]
    rfl
  · right; left
    exact ⟨e, s, by rw [Operation.bind_error happend]; rfl, hcont⟩

end World

/-! ### One step -/

variable {F : FallibleBackend}

/-- The calls that write. -/
def Call.Writes : Call P → Prop
  | .append .. | .appendMany .. | .rotate .. => True
  | _ => False

/-- The storage does not fail inside the batch, if the call is one. -/
def Call.StoresWhole (c : Call P) (w : World P F.toStorageBackend) : Prop :=
  match c with
  | .appendMany entries clock => ∀ rs, w.log.sealMany entries clock w.tail = .ok rs →
      F.TakesWhole rs (World.ensureInited w).2.store
  | _ => True

/-- What a call from `w` to `w'` that stored the records `rs` guarantees. -/
structure Stores (c : Call P) (w w' : World P F.toStorageBackend) (rs : List AuditRecord) :
    Prop where
  stored : w'.stored = w.stored ++ rs
  written : ∀ r ∈ rs, WrittenBy w.log r
  follows : Follows w.tail rs
  shared : w'.log.shared = false
  /-- It returned the records and knows them, or it raised, with the keys and the tail as
  they were. -/
  outcome : (c.exec w = (.ok rs, w') ∧ w'.tail = rs.getLast?.or w.tail) ∨
    ∃ e, c.exec w = (.error e, w') ∧ SameKeys w.log w'.log ∧ w'.tail = w.tail ∧
      (c.StoresWhole w → rs = [])

/-- A call that raised and stored nothing. -/
theorem stores_nil {c : Call P} {w : World P F.toStorageBackend} (h : w.log.shared = false)
    {s : F.State} (hcont : F.contents s = w.stored) {e : PyError}
    (hexec : c.exec w = (.error e, World.atTail w.log w.tail s)) :
    Stores c w (World.atTail w.log w.tail s) [] where
  stored := by
    rw [List.append_nil]
    exact hcont
  written := by simp
  follows := trivial
  shared := h
  outcome := Or.inr ⟨e, hexec, ⟨_, _, rfl⟩, rfl, fun _ => rfl⟩

/-- **What a call can do** on a storage that may fail. -/
theorem exec_cases {c : Call P} (hc : c.Writes) {w : World P F.toStorageBackend}
    (h : w.log.shared = false) : ∃ w' rs, Stores c w w' rs := by
  cases c with
  | init => exact absurd hc id
  | reopen cfg => exact absurd hc id
  | append actor action subject metadata timestamp now =>
    rcases World.append_fallible h actor action subject metadata timestamp now with
      ⟨r, s, hseal, happend, hcont⟩ | ⟨e, s, happend, hcont⟩
    · obtain ⟨hwritten, hfollows⟩ := written_of_seal hseal
      refine ⟨World.atTail w.log (some r) s, [r], hcont, by simpa using hwritten, hfollows, h,
        Or.inl ⟨?_, rfl⟩⟩
      rw [Call.exec, Operation.bind_ok happend, Operation.pure_apply]
    · exact ⟨_, [], stores_nil h hcont (by rw [Call.exec, Operation.bind_error happend])⟩
  | appendMany entries clock =>
    rcases World.appendMany_fallible h entries clock with
      ⟨rs, s, hseal, happend, hcont⟩ | ⟨e, s, done, happend, hcont, hpart⟩
    · obtain ⟨hwritten, hfollows⟩ := written_of_sealMany hseal
      exact ⟨World.atTail w.log (rs.getLast?.or w.tail) s, rs, hcont, hwritten, hfollows, h,
        Or.inl ⟨happend, rfl⟩⟩
    · have hdone : (∀ r ∈ done, WrittenBy w.log r) ∧ Follows w.tail done := by
        by_cases hnil : done = []
        · rw [hnil]
          exact ⟨by simp, trivial⟩
        obtain ⟨rest, hseal, -⟩ := hpart hnil
        obtain ⟨hwritten, hfollows⟩ := written_of_sealMany hseal
        exact ⟨fun r hr => hwritten r (List.mem_append_left _ hr), hfollows.of_append⟩
      refine ⟨World.atTail w.log w.tail s, done, hcont, hdone.1, hdone.2, h,
        Or.inr ⟨e, happend, ⟨_, _, rfl⟩, rfl, fun hwhole => ?_⟩⟩
      by_contra hne
      obtain ⟨rest, hseal, hpartial⟩ := hpart hne
      exact hpartial (hwhole _ hseal)
  | rotate newSealKey newKeyId actor now =>
    rcases World.rotate_fallible h newSealKey newKeyId actor now with
      ⟨hlong, r, s, hwritten, hfollows, hrotate, hcont⟩ | ⟨e, s, hrotate, hcont⟩ | hrotate
    · refine ⟨World.atTail (w.log.withKey newSealKey newKeyId hlong) (some r) s, [r], hcont,
        by simpa using hwritten, hfollows, h, Or.inl ⟨?_, rfl⟩⟩
      rw [Call.exec, Operation.bind_ok hrotate, Operation.pure_apply]
    · exact ⟨_, [], stores_nil h hcont (by rw [Call.exec, Operation.bind_error hrotate])⟩
    · refine ⟨w, [], by rw [List.append_nil], by simp, trivial, h,
        Or.inr ⟨shortKey, ?_, SameKeys.refl _, rfl, fun _ => rfl⟩⟩
      rw [Call.exec, Operation.bind_error hrotate]

/-! ### Runs -/

/-- The keys find, for every entry, the key that sealed it, and they ask for no signature
or for those of the log. -/
def FindsKeys (M : KeyMaterial P) (es : List (Entry P)) : Prop :=
  ∀ e ∈ es, M.keyFor e.record = e.writer.sealKey ∧
    (M.signers = none ∨ M.signers = (e.writer.keyMaterial none).signers)

theorem recordOk_of_finds (hP : P.SignaturesVerify) {M : KeyMaterial P} {log : AuditLog P}
    {r : AuditRecord} (h : WrittenBy log r) (hkey : M.keyFor r = log.sealKey)
    (hsigners : M.signers = none ∨ M.signers = (log.keyMaterial none).signers) :
    RecordOk M r := by
  have hown := h.recordOk hP
  rw [← h.keyFor none] at hkey
  rcases hsigners with hnone | hsame
  · refine ⟨fun hid => by rw [hkey]; exact hown.keyKnown hid, by rw [hkey]; exact hown.hash, ?_⟩
    intro signers hsome
    rw [hnone] at hsome
    cases hsome
  · exact hown.congr hkey hsame

/-- After a run that started on the records `start` and returned the entries `es`. -/
structure Kept (start : List AuditRecord) (es : List (Entry P))
    (w : World P F.toStorageBackend) : Prop where
  stored : w.stored = start ++ es.map Entry.record
  tail : w.tail = w.stored.getLast?
  written : ∀ e ∈ es, WrittenBy e.writer e.record
  chained : ChainedRecords w.stored
  shared : w.log.shared = false

theorem Kept.step {start : List AuditRecord} {es : List (Entry P)}
    {w : World P F.toStorageBackend} (h : Kept start es w) {c : Call P} (hc : c.Writes)
    (hwhole : c.StoresWhole w) : Kept start (es ++ (c.step w).1) (c.step w).2 := by
  obtain ⟨w', rs, hstores⟩ := exec_cases hc h.shared
  rcases hstores.outcome with ⟨hexec, htail⟩ | ⟨e, hexec, -, htail, hnil⟩
  · have hstep : c.step w = (rs.map (Entry.mk w.log), w') := by rw [Call.step, hexec]
    rw [hstep]
    refine ⟨?_, ?_, ?_, ?_, hstores.shared⟩
    · rw [hstores.stored, h.stored, List.map_append, List.map_map, List.append_assoc]
      simp [Function.comp_def]
    · rw [htail, h.tail, hstores.stored, List.getLast?_append]
    · intro e he
      rcases List.mem_append.mp he with he | he
      · exact h.written e he
      · obtain ⟨r, hr, rfl⟩ := List.mem_map.mp he
        exact hstores.written r hr
    · rw [hstores.stored]
      exact (h.tail ▸ hstores.follows).chained h.chained
  -- a call that raised has stored nothing
  · obtain rfl := hnil hwhole
    have hstored : w'.stored = w.stored := by rw [hstores.stored, List.append_nil]
    have hstep : c.step w = ([], w') := by rw [Call.step, hexec]
    rw [hstep, List.append_nil]
    exact ⟨hstored.trans h.stored, by rw [htail, h.tail, hstored], h.written,
      hstored ▸ h.chained, hstores.shared⟩

/-- What is stored passes under any keys that find the keys of its records. -/
theorem Kept.accepted (hP : P.SignaturesVerify) {start : List AuditRecord} {es : List (Entry P)}
    {w : World P F.toStorageBackend} (h : Kept start es w) {M : KeyMaterial P}
    (hstart : Accepted M start) (hkeys : FindsKeys M es) : Accepted M w.stored := by
  refine ⟨h.chained, fun r hr => ?_⟩
  rw [h.stored] at hr
  rcases List.mem_append.mp hr with hr | hr
  · exact hstart.records r hr
  · obtain ⟨e, he, rfl⟩ := List.mem_map.mp hr
    exact recordOk_of_finds hP (h.written e he) (hkeys e he).1 (hkeys e he).2

theorem shared_run {calls : List (Call P)} (hcalls : ∀ c ∈ calls, c.Writes)
    {w : World P F.toStorageBackend} (h : w.log.shared = false) :
    (runCalls calls w).2.log.shared = false := by
  refine run_preserves (fun c _ => c.Writes) (fun _ w => w.log.shared = false)
    (fun c w _ hc hinv => ?_) calls w [] (stepsOk_of_forall (fun c hc _ => hcalls c hc) w) h
  obtain ⟨w', rs, hstores⟩ := exec_cases hc hinv
  have hstep : (c.step w).2 = w' := by
    rcases hstores.outcome with ⟨hexec, -⟩ | ⟨e, hexec, -⟩ <;> rw [Call.step, hexec]
  rw [hstep]
  exact hstores.shared

/-- **Failed writes do no harm between calls.**  A call that raises leaves the keys as
they were; and if no batch fails half-way, what is stored after any number of calls is what
was returned, chained, and accepted under the keys that sealed it. -/
theorem failed_writes_keep (hP : P.SignaturesVerify) (cfg : Config P) (log : AuditLog P)
    (hnew : AuditLog.new cfg = .ok log) (hunshared : log.shared = false) (store : F.State)
    (hstart : ChainedRecords (F.contents store)) (calls : List (Call P))
    (hcalls : ∀ c ∈ calls, c.Writes) :
    let w₀ : World P F.toStorageBackend := ⟨log, store⟩
    (∀ n (hn : n < calls.length) e w', calls[n].exec (runCalls (calls.take n) w₀).2
        = (.error e, w') →
      w'.log.sealKey = (runCalls (calls.take n) w₀).2.log.sealKey ∧
        w'.log.keyId = (runCalls (calls.take n) w₀).2.log.keyId ∧
        w'.log.keyring = (runCalls (calls.take n) w₀).2.log.keyring) ∧
      (StepsOk Call.step (fun c w => c.StoresWhole (F := F) w) calls w₀ → ∀ n,
        let es := (runCalls (calls.take n) w₀).1
        let w := (runCalls (calls.take n) w₀).2
        w.stored = F.contents store ++ es.map Entry.record ∧
          ((∀ i (hi : i < w.stored.length), w.stored[i].seq = i) ∧
            (∀ hi : 0 < w.stored.length, w.stored[0].prevHash = GENESIS_HASH) ∧
            ∀ i (hi : i + 1 < w.stored.length),
              w.stored[i + 1].prevHash = w.stored[i].hash) ∧
          ∀ M : KeyMaterial P, Accepted M (F.contents store) → FindsKeys M es →
            ∃ report, verifyChain w.stored M none none = .ok report ∧ report.ok = true) := by
  intro w₀
  refine ⟨fun n hn e w' hexec => ?_, fun hwhole n => ?_⟩
  · have hprefix : ∀ c ∈ calls.take n, c.Writes := fun c hc => hcalls c (List.mem_of_mem_take hc)
    obtain ⟨w'', rs, hstores⟩ := exec_cases (hcalls _ (List.getElem_mem hn))
      (shared_run hprefix (w := w₀) hunshared)
    rcases hstores.outcome with ⟨hexec', -⟩ | ⟨e', hexec', ⟨last, inited, hlog⟩, -⟩
    · rw [hexec] at hexec'
      cases hexec'
    · obtain ⟨-, rfl⟩ := Prod.mk.inj (hexec.symm.trans hexec')
      rw [hlog]
      exact ⟨rfl, rfl, rfl⟩
  · have htail : w₀.tail = w₀.stored.getLast? := by
      have hinited : ¬w₀.log.inited = true := by
        rw [show w₀.log.inited = log.inited from rfl, new_inited hnew]
        simp
      rw [World.tail, if_neg hinited]
    have hkept : Kept (F.contents store) [] w₀ :=
      ⟨by simp [World.stored, w₀], htail, by simp, hstart, hunshared⟩
    have hrun := run_preserves (fun c w => c.Writes ∧ c.StoresWhole (F := F) w)
      (Kept (F.contents store)) (fun _ _ _ hc hinv => hinv.step hc.1 hc.2) (calls.take n) w₀ []
      ((hwhole.and hcalls).take n) hkept
    rw [List.nil_append] at hrun
    have hchained := hrun.chained
    exact ⟨hrun.stored, ⟨hchained.seq_getElem, hchained.prev_head, hchained.prev_getElem⟩,
      fun M hM hkeys => verifyChain_plain_iff.mpr (hrun.accepted hP hM hkeys)⟩

/-! ### A storage with planned faults -/

/-- `OSError: [Errno 28] No space left on device`. -/
def noSpace : PyError := ⟨.user (lit "OSError"), lit "[Errno 28] No space left on device"⟩

/-- Append in memory, unless the plan says to fail. -/
def flakyAppend (r : AuditRecord) : Operation PyError (List AuditRecord × List Bool) Unit
  | (records, true :: plan) => (.error noSpace, (records, plan))
  | (records, false :: plan) => (.ok (), (records ++ [r], plan))
  | (records, []) => (.ok (), (records ++ [r], []))

/-- Records in memory, and a plan which of the next appends fail. -/
def flakyBackend : FallibleBackend where
  State := List AuditRecord × List Bool
  init := pure ()
  append := flakyAppend
  load s := (.ok s.1, s)
  contents := Prod.fst
  init_ok _ := rfl
  init_contents _ := rfl
  append_ok r s h := by
    obtain ⟨records, _ | ⟨fails, plan⟩⟩ := s
    · rfl
    · cases fails
      · rfl
      · cases h
  append_error r s e h := by
    obtain ⟨records, _ | ⟨fails, plan⟩⟩ := s
    · cases h
    · cases fails
      · cases h
      · rfl
  load_ok _ := rfl
  load_contents _ := rfl

/-- `plainLog` on an empty storage with this plan. -/
abbrev onFlaky (plan : List Bool) : World referenceRuntime flakyBackend.toStorageBackend :=
  ⟨plainLog, (([] : List AuditRecord), plan)⟩

/-- Two entries in one batch. -/
def sampleBatch {P : Runtime} : Call P :=
  .appendMany [⟨lit "alice", lit "login", [], none⟩, ⟨lit "alice", lit "logout", [], none⟩]
    fun _ => lit "2024-01-01T00:00:00Z"

/-- With no fault left in the plan, every batch is stored. -/
theorem takesWhole_of_plan (rs : List AuditRecord) {s : List AuditRecord × List Bool}
    (h : s.2 = []) : flakyBackend.TakesWhole rs s := by
  have hok : ∀ (rs : List AuditRecord) (s : List AuditRecord × List Bool), s.2 = [] →
      (flakyBackend.appendMany rs s).1 = .ok () := by
    intro rs
    induction rs with
    | nil => exact fun _ _ => rfl
    | cons r rs ih =>
      rintro ⟨records, plan⟩ rfl
      have happend : flakyBackend.append r (records, []) = (.ok (), (records ++ [r], [])) := rfl
      exact (congrArg Prod.fst (Operation.bind_ok happend)).trans (ih _ rfl)
  intro e herr
  exact Except.noConfusion rfl rfl (heq_of_eq (herr.symm.trans (hok rs s h)))

/-- An append that fails, and then a batch: both records of the batch are stored, and pass. -/
theorem failed_writes_keep_sample :
    ∃ es w, runCalls [sampleAppend, sampleBatch] (onFlaky [true]) = (es, w) ∧
      w.stored.length = 2 ∧ ∃ report,
        verifyChain w.stored (⟨none, none, none⟩ : KeyMaterial referenceRuntime) none none
          = .ok report ∧ report.ok = true := by
  have hplan : (World.ensureInited (Call.step sampleAppend (onFlaky [true])).2).2.store.2 = [] := by
    decide +kernel
  have hwhole : StepsOk Call.step
      (fun c w => Call.StoresWhole (F := flakyBackend) (P := referenceRuntime) c w)
      [sampleAppend, sampleBatch] (onFlaky [true]) :=
    ⟨trivial, fun rs _ => takesWhole_of_plan rs hplan, trivial⟩
  have hentries : (runCalls [sampleAppend, sampleBatch] (onFlaky [true])).1.map
      (fun e => (e.writer.sealKey, e.record.keyId)) = [(none, []), (none, [])] := by decide +kernel
  obtain ⟨-, hkept⟩ := failed_writes_keep (F := flakyBackend) referenceRuntime_signaturesVerify {}
    plainLog new_default rfl (([] : List AuditRecord), [true]) trivial [sampleAppend, sampleBatch]
    (by simp [sampleAppend, sampleBatch, Call.Writes])
  have hboth := hkept hwhole 2
  simp only [List.take_succ_cons, List.take_zero] at hboth
  cases hrun : runCalls [sampleAppend, sampleBatch] (onFlaky [true]) with
  | mk es w =>
  simp only [hrun] at hboth hentries
  obtain ⟨hstored, -, hverify⟩ := hboth
  refine ⟨es, w, rfl, ?_, hverify _ ⟨trivial, by intro r hr; cases hr⟩ fun e he => ?_⟩
  · have hlength := congrArg List.length hentries
    rw [List.length_map] at hlength
    rw [hstored, List.length_append, List.length_map, hlength]
    rfl
  · have hmem : (e.writer.sealKey, e.record.keyId) ∈ [(none, []), (none, [])] := by
      rw [← hentries]
      exact List.mem_map_of_mem he
    obtain ⟨hkey, hid⟩ : e.writer.sealKey = none ∧ e.record.keyId = [] := by simpa using hmem
    exact ⟨by rw [hkey]; simp [KeyMaterial.keyFor, keyFor, hid], Or.inl rfl⟩

/-- After half a batch the next record repeats a number. -/
theorem failed_writes_counterexample :
    ¬∀ (P : Runtime) (F : FallibleBackend) (cfg : Config P) (log : AuditLog P) (store : F.State)
      (calls : List (Call P)) (c : Call P), P.SignaturesVerify → AuditLog.new cfg = .ok log →
        log.shared = false → F.contents store = [] → (∀ c ∈ calls, c.Writes) → c.Writes →
          let w := (runCalls calls (⟨log, store⟩ : World P F.toStorageBackend)).2
          (∃ rs, (c.exec w).1 = .ok rs) →
            ∀ i (hi : i < (World.stored (F := F) (c.exec w).2).length),
              (World.stored (F := F) (c.exec w).2)[i].seq = i := by
  intro hclaim
  let w := (runCalls [sampleBatch] (onFlaky [false, true])).2
  have hseqs : (World.stored (F := flakyBackend) (sampleAppend.exec w).2).map AuditRecord.seq
      = [0, 0] := by decide +kernel
  have hok : ((sampleAppend.exec w).1).toOption.isSome = true := by decide +kernel
  have hreturned : ∃ rs, (sampleAppend.exec w).1 = .ok rs := by
    cases h : (sampleAppend.exec w).1 with
    | error e =>
      rw [h] at hok
      cases hok
    | ok rs => exact ⟨rs, rfl⟩
  exact not_numbered hseqs (hclaim referenceRuntime flakyBackend {} plainLog
    (([] : List AuditRecord), [false, true]) [sampleBatch] sampleAppend
    referenceRuntime_signaturesVerify new_default rfl rfl (by simp [sampleBatch, Call.Writes])
    trivial hreturned)

end AuditChain
