/-
AuditChain/Batches.lean

One batch, or one append after the other.

Both ways seal the same records: the batch on a local variable, the appends on
the tail they find.  A `Sink` is a backend in which they find it: what is added
can be viewed, and the last record of what is viewed is found again, as far as
its number and its hash go.  In a sink, one batch and its entries one by one do
the same (`appendMany_sameOutcome`).

Sealing fails for the first entry or for none, if the entries themselves can be
serialized (`sealMany_of_first`).
-/
import AuditChain.LogSteps
import AuditChain.Payload
import AuditChain.Utf8

namespace AuditChain

open Python

variable {P : Runtime}

/-! ### Sealing -/

/-- **Which records can be sealed.** -/
theorem exists_seal_iff {log : AuditLog P} {r : AuditRecord} : (∃ r', log.seal r = .ok r') ↔
    (∃ data, hashInput P r = .ok data) ∧
      (log.signingKey.isSome = true → Encodable r.signerId) := by
  constructor
  · rintro ⟨r', hseal⟩
    obtain ⟨recordHash, signature, -, ⟨data, hdata, -⟩, -, hsigned⟩ := seal_spec hseal
    refine ⟨⟨data, hdata⟩, fun hsome => ?_⟩
    obtain ⟨key, hkey⟩ := Option.isSome_iff_exists.mp hsome
    obtain ⟨message, hmessage, -⟩ := hsigned key hkey
    have htext := utf8Encode_ok_iff.mp ⟨message, hmessage⟩
    exact ((encodable_recordSigningText _ _ _).mp htext).2
  · rintro ⟨⟨data, hdata⟩, hsigner⟩
    have hhash : computeRecordHash P r log.sealKey = .ok (P.seal log.sealKey data).hex :=
      computeRecordHash_eq_ok.mpr ⟨data, hdata, rfl⟩
    cases hkey : log.signingKey with
    | none =>
      refine ⟨{ r with hash := (P.seal log.sealKey data).hex }, ?_⟩
      simp only [AuditLog.seal, hhash, hkey]
    | some key =>
      have hsome : log.signingKey.isSome = true := by rw [hkey]; rfl
      obtain ⟨message, hmessage⟩ := utf8Encode_ok_iff.mpr ((encodable_recordSigningText r.seq
        (hexStr (P.seal log.sealKey data).val) r.signerId).mpr ⟨encodable_hexStr _, hsigner hsome⟩)
      refine ⟨{ r with
        hash := (P.seal log.sealKey data).hex
        signature := hexStr (P.sign key message).val }, ?_⟩
      simp only [AuditLog.seal, hhash, hkey, signRecord, recordSigningMessage, Digest.hex, hmessage,
        ok_bind, signMessage_object (log.signs hsome).2]
      rfl

/-- The entry can be serialized: its metadata are JSON for Python, and its texts have
UTF-8. -/
structure BatchEntry.Serializable (e : BatchEntry) : Prop where
  metadata : (PyVal.dict (e.metadata.getD [])).serializable = true
  actor : Encodable e.actor
  action : Encodable e.action
  subject : Encodable e.subject
  leaves : (PyVal.dict (e.metadata.getD [])).AllLeaves Encodable fun _ => True

/-- The record for an entry, before it is sealed. -/
def AuditLog.recordFor (log : AuditLog P) (e : BatchEntry) (now : PyStr)
    (prev : Option AuditRecord) : AuditRecord :=
  log.buildRecord e.actor e.action e.subject (e.metadata.getD []) none now prev

theorem encodable_of_isAscii {s : PyStr} (h : IsAscii s) : Encodable s := by
  intro c hc
  have hlt := h c hc
  simp only [isSurrogate, Bool.and_eq_false_iff, decide_eq_false_iff_not]
  omega

/-- **Which entries can be sealed** behind which record. -/
theorem exists_seal_recordFor_iff (log : AuditLog P) (e : BatchEntry) (now : PyStr)
    (prev : Option AuditRecord) : (∃ r, log.seal (log.recordFor e now prev) = .ok r) ↔
      e.Serializable ∧ Encodable now ∧ IsAscii (log.recordFor e now prev).prevHash ∧
        (log.signingKey.isSome = true → Encodable log.signerId) := by
  have hsigner : (log.signingKey.isSome = true → Encodable (log.recordFor e now prev).signerId) ↔
      (log.signingKey.isSome = true → Encodable log.signerId) := by
    apply forall_congr'
    intro hsome
    rw [show (log.recordFor e now prev).signerId = log.signerId from if_pos hsome]
  rw [exists_seal_iff, exists_hashInput_iff, encodablePayload_iff, hsigner]
  constructor
  · rintro ⟨⟨hprev, hmeta, hts, hactor, haction, hsubject, -, hleaves⟩, hsign⟩
    exact ⟨⟨hmeta, hactor, haction, hsubject, hleaves⟩, hts, hprev, hsign⟩
  · rintro ⟨he, hts, hprev, hsign⟩
    exact ⟨⟨hprev, he.metadata, hts, he.actor, he.action, he.subject, encodable_of_isAscii hprev,
      he.leaves⟩, hsign⟩

/-- The hash that was sealed is ASCII, so the next record can be built on it. -/
theorem isAscii_hash_of_seal {log : AuditLog P} {r r' : AuditRecord} (h : log.seal r = .ok r') :
    IsAscii r'.hash := by
  obtain ⟨recordHash, signature, rfl, ⟨data, -, rfl⟩, -, -⟩ := seal_spec h
  exact isAscii_hexStr _

theorem metadata_of_seal {log : AuditLog P} {r r' : AuditRecord} (h : log.seal r = .ok r') :
    r'.metadata = r.metadata := by
  obtain ⟨recordHash, signature, rfl, -⟩ := seal_spec h
  rfl

theorem sealMany_cons {log : AuditLog P} {e : BatchEntry} {es : List BatchEntry}
    {clock : ℕ → PyStr} {prev : Option AuditRecord} {r : AuditRecord} {rs : List AuditRecord}
    (hr : log.seal (log.recordFor e (clock 0) prev) = .ok r)
    (hrs : log.sealMany es (fun i => clock (i + 1)) (some r) = .ok rs) :
    log.sealMany (e :: es) clock prev = .ok (r :: rs) := by
  rw [AuditLog.recordFor] at hr
  rw [AuditLog.sealMany, hr, ok_bind, hrs]
  rfl

theorem sealMany_cons_error {log : AuditLog P} {e : BatchEntry} {es : List BatchEntry}
    {clock : ℕ → PyStr} {prev : Option AuditRecord} {err : PyError}
    (h : log.seal (log.recordFor e (clock 0) prev) = .error err) :
    log.sealMany (e :: es) clock prev = .error err := by
  rw [AuditLog.recordFor] at h
  rw [AuditLog.sealMany, h]
  rfl

/-- **Entries that can be serialized** are all sealed, or already the first one is not. -/
theorem sealMany_of_first {log : AuditLog P} {e : BatchEntry} {es : List BatchEntry}
    (clock : ℕ → PyStr) {prev : Option AuditRecord} {r : AuditRecord}
    (hr : log.seal (log.recordFor e (clock 0) prev) = .ok r) (hes : ∀ e ∈ es, e.Serializable)
    (hclock : ∀ i, Encodable (clock i)) :
    ∃ rs, log.sealMany (e :: es) clock prev = .ok (r :: rs) := by
  induction es generalizing e clock prev r with
  | nil =>
    exact ⟨[], sealMany_cons hr rfl⟩
  | cons e' es ih =>
    obtain ⟨he', hes⟩ := List.forall_mem_cons.mp hes
    obtain ⟨-, -, -, hsigner⟩ := (exists_seal_recordFor_iff _ _ _ _).mp ⟨r, hr⟩
    obtain ⟨r', hr'⟩ := (exists_seal_recordFor_iff log e' (clock 1)
      (some r)).mpr ⟨he', hclock 1, isAscii_hash_of_seal hr, hsigner⟩
    obtain ⟨rs, hrs⟩ := ih (fun i => clock (i + 1)) hr' hes fun i => hclock (i + 1)
    exact ⟨r' :: rs, sealMany_cons hr hrs⟩

/-- A batch is sealed only if all its entries can be serialized. -/
theorem serializable_of_sealMany {log : AuditLog P} {es : List BatchEntry} {clock : ℕ → PyStr}
    {prev : Option AuditRecord} {rs : List AuditRecord}
    (h : log.sealMany es clock prev = .ok rs) : ∀ e ∈ es, e.Serializable := by
  induction es generalizing clock prev rs with
  | nil => simp
  | cons e es ih =>
    obtain ⟨r, hr, h⟩ := bind_eq_ok.mp h
    obtain ⟨rs', hrs', -⟩ := bind_eq_ok.mp h
    exact List.forall_mem_cons.mpr ⟨((exists_seal_recordFor_iff _ _ _ _).mp ⟨r, hr⟩).1, ih hrs'⟩

/-! ### Sinks -/

variable (P) in
/-- After sealing, only the ids on a record can keep it from being stored. -/
structure AuditRecord.Finished (r : AuditRecord) : Prop where
  hashed : ∃ data, hashInput P r = .ok data
  hash : Encodable r.hash
  signature : Encodable r.signature

theorem WrittenBy.finished {log : AuditLog P} {r : AuditRecord} (h : WrittenBy log r) :
    r.Finished P := by
  obtain ⟨data, hdata, hhash⟩ := h.hashed
  refine ⟨⟨data, hdata⟩, ?_, ?_⟩
  · rw [hhash]
    exact encodable_hexStr _
  · cases hkey : log.signingKey with
    | none =>
      rw [h.unsigned hkey]
      exact encodable_nil
    | some key =>
      obtain ⟨message, -, hsignature⟩ := h.signed key hkey
      rw [hsignature]
      exact encodable_hexStr _

/-- The records agree on what the next record depends on. -/
structure SameEnd (r r' : AuditRecord) : Prop where
  seq : r.seq = r'.seq
  hash : r.hash = r'.hash

variable (P) in
/-- A backend for a log to append to, as far as what is in it can be viewed. -/
structure Sink (S : StorageBackend) where
  View : Type
  view : S.State → View
  /-- What is viewed after records were added. -/
  put : View → List AuditRecord → View
  /-- The key and signer ids that can be stored. -/
  Storable : PyStr → PyStr → Prop
  /-- The exception for records with other ids, and what it leaves behind. -/
  refusal : PyError
  refused : View → View
  /-- The end of what is viewed is where the next record begins. -/
  Ready : View → Prop
  /-- The metadata that can be read again. -/
  Readable : PyDict → Prop
  init_view : ∀ s, view (S.init s).2 = view s
  load_view : ∀ s, view (S.load s).2 = view s
  loadLast_view : ∀ s, view (S.loadLast s).2 = view s
  put_nil : ∀ v, put v [] = v
  put_put : ∀ v rs rs', put (put v rs) rs' = put v (rs ++ rs')
  append_ok : ∀ {r}, r.Finished P → Storable r.keyId r.signerId → ∀ s,
    ∃ s', S.append r s = (.ok (), s') ∧ view s' = put (view s) [r]
  append_error : ∀ {r}, r.Finished P → ¬Storable r.keyId r.signerId → ∀ s,
    ∃ s', S.append r s = (.error refusal, s') ∧ view s' = refused (view s)
  appendMany_ok : ∀ {rs}, rs ≠ [] → (∀ r ∈ rs, r.Finished P ∧ Storable r.keyId r.signerId) →
    ∀ s, ∃ s', S.appendMany rs s = (.ok (), s') ∧ view s' = put (view s) rs
  appendMany_error : ∀ {rs}, rs ≠ [] → (∀ r ∈ rs, r.Finished P ∧ ¬Storable r.keyId r.signerId) →
    ∀ s, ∃ s', S.appendMany rs s = (.error refusal, s') ∧ view s' = refused (view s)
  ready_put : ∀ {v}, Ready v → ∀ rs, Ready (put v rs)
  loadLast_put : ∀ {v r}, Ready v → r.Finished P → Storable r.keyId r.signerId →
    Readable r.metadata → ∀ s, view s = put v [r] →
      ∃ r', (S.loadLast s).1 = .ok (some r') ∧ SameEnd r r'

/-- A backend that keeps its records in order shows them all. -/
def OrderedBackend.sink (P : Runtime) (B : OrderedBackend) : Sink P B.toStorageBackend where
  View := List AuditRecord
  view := B.contents
  put v rs := v ++ rs
  Storable _ _ := True
  refusal := typeError []
  refused := id
  Ready _ := True
  Readable _ := True
  init_view := B.init_contents
  load_view := B.load_contents
  loadLast_view := B.loadLast_contents
  put_nil := List.append_nil
  put_put := List.append_assoc
  append_ok := fun {r} _ _ s =>
    ⟨_, Prod.ext (B.append_ok r s) rfl, B.append_contents r s⟩
  append_error := fun _ hnot => absurd trivial hnot
  appendMany_ok := fun {rs} _ _ s =>
    ⟨_, Prod.ext (B.appendMany_ok rs s) rfl, B.appendMany_contents rs s⟩
  appendMany_error := fun hne hnot => by
    obtain ⟨r, rs, rfl⟩ := List.exists_cons_of_ne_nil hne
    exact absurd trivial (hnot r List.mem_cons_self).2
  ready_put := fun _ _ => trivial
  loadLast_put := fun {v r} _ _ _ _ s hs => by
    refine ⟨r, ?_, rfl, rfl⟩
    rw [B.loadLast_ok, show B.contents s = v ++ [r] from hs, List.getLast?_concat]

/-! ### One by one -/

namespace World

variable {S : StorageBackend}

/-- Append the entries one by one, each with its own timestamp. -/
def appendAll : List BatchEntry → (clock now : ℕ → PyStr) → Op P S (List AuditRecord)
  | [], _, _ => pure []
  | e :: es, clock, now => do
    let r ← append e.actor e.action e.subject e.metadata (some (clock 0)) (now 0)
    let rs ← appendAll es (fun i => clock (i + 1)) (fun i => now (i + 1))
    return r :: rs

/-- What `append` does with the tail it found. -/
def sealAndStore (e : BatchEntry) (timestamp : PyStr) : Op P S AuditRecord := do
  let w ← Operation.get
  let r ← Operation.ofExcept (w.log.seal (w.log.recordFor e timestamp w.log.last))
  storage (S.append r)
  modifyLog fun log => { log with last := some r }
  return r

/-- What `append_many` does with the tail it found. -/
def sealAndStoreMany (entries : List BatchEntry) (clock : ℕ → PyStr) :
    Op P S (List AuditRecord) := do
  let w ← Operation.get
  let rs ← Operation.ofExcept (w.log.sealMany entries clock w.log.last)
  if rs.isEmpty then return []
  storage (S.appendMany rs)
  modifyLog fun log => { log with last := rs.getLast? }
  return rs

/-- Open the log and find its tail, as every append begins. -/
def findTail : Op P S Unit := do
  ensureInited
  refreshTail

theorem append_eq (e : BatchEntry) {timestamp : PyStr} (h : timestamp ≠ []) (now : PyStr) :
    (append e.actor e.action e.subject e.metadata (some timestamp) now : Op P S AuditRecord)
      = findTail >>= fun _ => sealAndStore e timestamp := by
  have htimestamp : ∀ (log : AuditLog P) prev, log.buildRecord e.actor e.action e.subject
      (e.metadata.getD []) (some timestamp) now prev = log.recordFor e timestamp prev := by
    intro log prev
    have hsome : timestampOr (some timestamp) now = timestamp := if_neg h
    have hnone : timestampOr none timestamp = timestamp := if_pos rfl
    simp only [AuditLog.recordFor, AuditLog.buildRecord, hsome, hnone]
  funext w
  simp only [append, findTail, sealAndStore, htimestamp, Operation.bind_assoc]

theorem appendMany_eq (entries : List BatchEntry) (clock : ℕ → PyStr) :
    (appendMany entries clock : Op P S (List AuditRecord))
      = findTail >>= fun _ => sealAndStoreMany entries clock := by
  funext w
  simp only [appendMany, findTail, sealAndStoreMany, Operation.bind_assoc]

theorem init_sink (K : Sink P S) (w : World P S) : K.view (init w).2.store = K.view w.store ∧
    ∀ u, (init w).1 = .ok u → ∃ last, (init w).2.log = w.log.withTail last true := by
  cases hinit : (S.init w.store).1 with
  | error e =>
    rw [init, Operation.bind_error (storage_error hinit)]
    exact ⟨K.init_view _, fun u h => by cases h⟩
  | ok u =>
    rw [init, Operation.bind_ok (storage_ok hinit)]
    cases hload : (S.load (S.init w.store).2).1 with
    | error e =>
      rw [Operation.bind_error (storage_error hload)]
      exact ⟨(K.load_view _).trans (K.init_view _), fun u h => by cases h⟩
    | ok records =>
      rw [Operation.bind_ok (storage_ok hload)]
      exact ⟨(K.load_view _).trans (K.init_view _), fun _ _ => ⟨records.getLast?, rfl⟩⟩

theorem ensureInited_sink (K : Sink P S) (w : World P S) :
    K.view (ensureInited w).2.store = K.view w.store ∧
      ∀ u, (ensureInited w).1 = .ok u →
        ∃ last, (ensureInited w).2.log = w.log.withTail last true := by
  by_cases hinited : w.log.inited = true
  · rw [ensureInited_of_inited hinited]
    refine ⟨rfl, fun _ _ => ⟨w.log.last, ?_⟩⟩
    rw [← hinited, withTail_self]
  · rw [ensureInited_of_not_inited hinited]
    exact init_sink K w

theorem refreshTail_sink (K : Sink P S) (w : World P S) :
    K.view (refreshTail w).2.store = K.view w.store ∧
      ∃ last, (refreshTail w).2.log = w.log.withTail last w.log.inited := by
  by_cases hshared : w.log.shared = true
  · cases hlast : (S.loadLast w.store).1 with
    | error e =>
      rw [refreshTail_of_shared_error hshared hlast]
      exact ⟨K.loadLast_view _, w.log.last, rfl⟩
    | ok last =>
      rw [refreshTail_of_shared hshared hlast]
      exact ⟨K.loadLast_view _, last, rfl⟩
  · rw [refreshTail_of_not_shared hshared]
    exact ⟨rfl, w.log.last, rfl⟩

/-- Finding the tail adds nothing, and leaves the log open with some tail. -/
theorem findTail_sink (K : Sink P S) (w : World P S) :
    K.view (findTail w).2.store = K.view w.store ∧
      ∀ u, (findTail w).1 = .ok u → ∃ last, (findTail w).2.log = w.log.withTail last true := by
  obtain ⟨hview, hlog⟩ := ensureInited_sink K w
  rcases hopen : ensureInited w with ⟨_ | u, w₀⟩
  · rw [findTail, Operation.bind_error hopen]
    rw [hopen] at hview
    exact ⟨hview, fun u h => by cases h⟩
  · rw [findTail, Operation.bind_ok hopen]
    rw [hopen] at hview hlog
    obtain ⟨last₀, hlog₀⟩ := hlog u rfl
    obtain ⟨hview', last, hlast⟩ := refreshTail_sink K w₀
    refine ⟨hview'.trans hview, fun _ _ => ⟨last, ?_⟩⟩
    rw [hlast, show w₀.log = w.log.withTail last₀ true from hlog₀]
    rfl

variable (K : Sink P S) in
/-- The log can append these entries and find each record again that another one follows: it
remembers the record, or it can read it. -/
def FindsOwn (w : World P S) (entries : List BatchEntry) : Prop :=
  w.log.shared = true → 1 < entries.length →
    K.Ready (K.view w.store) ∧ ∀ e ∈ entries, K.Readable (e.metadata.getD [])

/-- A backend that keeps its records in order always shows its tail. -/
theorem findTail_ordered {B : OrderedBackend} (w : World P B.toStorageBackend) :
    (findTail w).1 = .ok () := by
  obtain ⟨w₁, hopen⟩ : ∃ w₁, ensureInited w = (.ok (), w₁) := by
    by_cases hinited : w.log.inited = true
    · exact ⟨w, ensureInited_of_inited hinited⟩
    · obtain ⟨s, hinit, -⟩ := init_spec w
      exact ⟨_, (ensureInited_of_not_inited hinited).trans hinit⟩
  rw [findTail, Operation.bind_ok hopen]
  by_cases hshared : w₁.log.shared = true
  · rw [refreshTail_of_shared hshared (B.loadLast_ok w₁.store)]
  · rw [refreshTail_of_not_shared hshared]

/-- The same tail, as far as the next record goes. -/
def EndsAlike (a b : Option AuditRecord) : Prop :=
  a.map AuditRecord.seq = b.map AuditRecord.seq ∧ a.map AuditRecord.hash = b.map AuditRecord.hash

theorem recordFor_congr {a b : Option AuditRecord} (h : EndsAlike a b) (log : AuditLog P)
    (e : BatchEntry) (now : PyStr) : log.recordFor e now a = log.recordFor e now b := by
  obtain ⟨hseq, hhash⟩ := h
  cases a <;> cases b <;>
    simp_all [AuditLog.recordFor, AuditLog.buildRecord]

/-- The log finds a tail like this one. -/
def FindsTail (w : World P S) (prev : Option AuditRecord) : Prop :=
  ∃ w', findTail w = (.ok (), w') ∧ EndsAlike w'.log.last prev

theorem sealAndStore_ok (K : Sink P S) {w : World P S} {e : BatchEntry} {timestamp : PyStr}
    {r : AuditRecord} (hseal : w.log.seal (w.log.recordFor e timestamp w.log.last) = .ok r)
    (hstorable : K.Storable r.keyId r.signerId) : ∃ s,
      sealAndStore e timestamp w = (.ok r, ⟨w.log.withTail (some r) w.log.inited, s⟩) ∧
        K.view s = K.put (K.view w.store) [r] := by
  obtain ⟨s, happend, hview⟩ := K.append_ok (written_of_seal hseal).1.finished hstorable w.store
  refine ⟨s, ?_, hview⟩
  rw [sealAndStore, Operation.bind_ok (Operation.get_apply w),
    Operation.bind_ofExcept_ok hseal, Operation.bind_ok (storage_ok (congrArg Prod.fst happend)),
    happend]
  rfl

/-- An open log that is shared reads its tail. -/
theorem findTail_shared {w : World P S} (hinited : w.log.inited = true)
    (hshared : w.log.shared = true) {last : Option AuditRecord}
    (h : (S.loadLast w.store).1 = .ok last) : findTail w
      = (.ok (), ⟨w.log.withTail last w.log.inited, (S.loadLast w.store).2⟩) := by
  rw [findTail, Operation.bind_ok (ensureInited_of_inited hinited), refreshTail_of_shared hshared h]

theorem findTail_shared_error {w : World P S} (hinited : w.log.inited = true)
    (hshared : w.log.shared = true) {err : PyError} (h : (S.loadLast w.store).1 = .error err) :
    findTail w = (.error err, ⟨w.log, (S.loadLast w.store).2⟩) := by
  rw [findTail, Operation.bind_ok (ensureInited_of_inited hinited),
    refreshTail_of_shared_error hshared h]

/-- A log that has written a record finds it. -/
theorem findsTail_of_put (K : Sink P S) {log : AuditLog P} {r : AuditRecord} {s : S.State}
    {v : K.View} (hready : log.shared = true → K.Ready v ∧ K.Readable r.metadata)
    (hfinished : r.Finished P) (hstorable : K.Storable r.keyId r.signerId)
    (hview : K.view s = K.put v [r]) :
    FindsTail (⟨log.withTail (some r) true, s⟩ : World P S) (some r) := by
  by_cases hshared : log.shared = true
  · obtain ⟨hend, hreadable⟩ := hready hshared
    obtain ⟨r', hlast, hseq, hhash⟩ :=
      K.loadLast_put hend hfinished hstorable hreadable s hview
    have hsh : (⟨log.withTail (some r) true, s⟩ : World P S).log.shared = true := hshared
    exact ⟨_, findTail_shared rfl hsh hlast, congrArg some hseq.symm, congrArg some hhash.symm⟩
  · have hsh : ¬(⟨log.withTail (some r) true, s⟩ : World P S).log.shared = true := hshared
    refine ⟨⟨log.withTail (some r) true, s⟩, ?_, rfl, rfl⟩
    rw [findTail, Operation.bind_ok (ensureInited_of_inited rfl), refreshTail_of_not_shared hsh]

/-- **One by one**: from a tail like `prev`, the appends write what the batch would seal
behind `prev`. -/
theorem appendAll_run (K : Sink P S) (es : List BatchEntry) (clock now : ℕ → PyStr)
    {w : World P S} {prev : Option AuditRecord} {rs : List AuditRecord}
    (hfinds : FindsTail w prev) (hown : FindsOwn K w es)
    (hmany : w.log.sealMany es clock prev = .ok rs) (hclock : ∀ i, clock i ≠ [])
    (hstorable : ∀ r ∈ rs, K.Storable r.keyId r.signerId) :
    ∃ w', appendAll es clock now w = (.ok rs, w') ∧ K.view w'.store = K.put (K.view w.store) rs ∧
      w'.log = rs.getLast?.elim w.log fun r => w.log.withTail (some r) true := by
  induction es generalizing clock now w prev rs with
  | nil =>
    obtain rfl : [] = rs := Except.ok.inj hmany
    exact ⟨w, rfl, (K.put_nil _).symm, rfl⟩
  | cons e es ih =>
    obtain ⟨r, hseal, hmany⟩ := bind_eq_ok.mp hmany
    obtain ⟨rs', hrest, hmany⟩ := bind_eq_ok.mp hmany
    obtain rfl := Except.ok.inj hmany
    obtain ⟨hr, hrs'⟩ := List.forall_mem_cons.mp hstorable
    obtain ⟨w₁, hfind, htail⟩ := hfinds
    obtain ⟨hview₁, hlog₁⟩ := findTail_sink K w
    rw [hfind] at hview₁ hlog₁
    obtain ⟨last, hlog₁⟩ := hlog₁ () rfl
    replace hlog₁ : w₁.log = w.log.withTail last true := hlog₁
    have hseal₁ : w₁.log.seal (w₁.log.recordFor e (clock 0) w₁.log.last) = .ok r := by
      rw [recordFor_congr htail, hlog₁]
      exact hseal
    obtain ⟨s, hstore, hview⟩ := sealAndStore_ok K hseal₁ hr
    replace hstore : sealAndStore e (clock 0) w₁
        = (.ok r, ⟨w.log.withTail (some r) true, s⟩) := by
      rw [hstore, hlog₁]
      rfl
    rw [hview₁] at hview
    have hfirst : append e.actor e.action e.subject e.metadata (some (clock 0)) (now 0) w
        = (.ok r, ⟨w.log.withTail (some r) true, s⟩) := by
      rw [append_eq e (hclock 0), Operation.bind_ok hfind, hstore]
    rcases es with _ | ⟨e', es⟩
    · obtain rfl : [] = rs' := Except.ok.inj hrest
      refine ⟨⟨w.log.withTail (some r) true, s⟩, ?_, hview, rfl⟩
      rw [appendAll, Operation.bind_ok hfirst]
      rfl
    -- the next append finds the record
    have hfinds₂ : FindsTail (⟨w.log.withTail (some r) true, s⟩ : World P S) (some r) := by
      refine findsTail_of_put K (fun hshared => ?_) (written_of_seal hseal).1.finished hr hview
      obtain ⟨hready, hreadable⟩ := hown hshared (by simp)
      rw [metadata_of_seal hseal]
      exact ⟨hready, hreadable e List.mem_cons_self⟩
    have hown₂ : FindsOwn K (⟨w.log.withTail (some r) true, s⟩ : World P S) (e' :: es) := by
      intro hshared _
      obtain ⟨hready, hreadable⟩ := hown hshared (by simp)
      rw [show K.view s = _ from hview]
      exact ⟨K.ready_put hready _, fun e he => hreadable e (List.mem_cons_of_mem _ he)⟩
    obtain ⟨w', hall, hview', hlog'⟩ := ih (fun i => clock (i + 1)) (fun i => now (i + 1)) hfinds₂
      hown₂ (by rw [withTail_sealMany]; exact hrest) (fun i => hclock (i + 1)) hrs'
    refine ⟨w', ?_, ?_, ?_⟩
    · rw [appendAll, Operation.bind_ok hfirst, Operation.bind_ok hall]
      rfl
    · rw [hview', show K.view (⟨w.log.withTail (some r) true, s⟩ : World P S).store = _ from hview,
        K.put_put]
      rfl
    · rw [hlog', List.getLast?_cons]
      cases rs'.getLast? <;> rfl

/-! ### All at once -/

/-- Two ways to the same result, the same log and the same view of the storage. -/
structure SameOutcome (K : Sink P S) {α : Type} (x y : Except PyError α × World P S) : Prop where
  result : x.1 = y.1
  log : x.2.log = y.2.log
  view : K.view x.2.store = K.view y.2.store

theorem sealAndStore_seal_error {w : World P S} {e : BatchEntry} {timestamp : PyStr} {err : PyError}
    (h : w.log.seal (w.log.recordFor e timestamp w.log.last) = .error err) :
    sealAndStore e timestamp w = (.error err, w) := by
  rw [sealAndStore, Operation.bind_ok (Operation.get_apply w), Operation.bind_ofExcept_error h]

theorem sealAndStoreMany_seal_error {w : World P S} {entries : List BatchEntry}
    {clock : ℕ → PyStr} {err : PyError}
    (h : w.log.sealMany entries clock w.log.last = .error err) :
    sealAndStoreMany entries clock w = (.error err, w) := by
  rw [sealAndStoreMany, Operation.bind_ok (Operation.get_apply w), Operation.bind_ofExcept_error h]

/-- The storage takes all records of a batch or none: they carry the same ids. -/
theorem storable_or_refused (K : Sink P S) {log : AuditLog P} {entries : List BatchEntry}
    {clock : ℕ → PyStr} {prev : Option AuditRecord} {rs : List AuditRecord}
    (h : log.sealMany entries clock prev = .ok rs) :
    (∀ r ∈ rs, r.Finished P ∧ K.Storable r.keyId r.signerId) ∨
      ∀ r ∈ rs, r.Finished P ∧ ¬K.Storable r.keyId r.signerId := by
  have hwritten := (written_of_sealMany h).1
  by_cases hstorable : K.Storable (if log.sealKey.isSome then log.keyId else [])
      (if log.signingKey.isSome then log.signerId else [])
  · left
    intro r hr
    rw [(hwritten r hr).keyId, (hwritten r hr).signerId]
    exact ⟨(hwritten r hr).finished, hstorable⟩
  · right
    intro r hr
    rw [(hwritten r hr).keyId, (hwritten r hr).signerId]
    exact ⟨(hwritten r hr).finished, hstorable⟩

/-- What the storage refuses of a single record it refuses of a batch. -/
theorem sameOutcome_refused (K : Sink P S) {w : World P S} {e : BatchEntry}
    {es : List BatchEntry} {clock now : ℕ → PyStr} {r : AuditRecord} {rs : List AuditRecord}
    (hseal : w.log.seal (w.log.recordFor e (clock 0) w.log.last) = .ok r)
    (hmany : w.log.sealMany (e :: es) clock w.log.last = .ok (r :: rs))
    (hall : ∀ x ∈ r :: rs, x.Finished P ∧ ¬K.Storable x.keyId x.signerId) :
    SameOutcome K (sealAndStoreMany (e :: es) clock w)
      ((sealAndStore e (clock 0) >>= fun r => do
        let rs ← appendAll es (fun i => clock (i + 1)) (fun i => now (i + 1))
        return r :: rs) w) := by
  obtain ⟨hfinished, hnot⟩ := hall r List.mem_cons_self
  obtain ⟨s, happend, hview⟩ := K.append_error hfinished hnot w.store
  obtain ⟨s', happendMany, hview'⟩ := K.appendMany_error (List.cons_ne_nil r rs) hall w.store
  have hsingle : sealAndStore e (clock 0) w = (.error K.refusal, ⟨w.log, s⟩) := by
    rw [sealAndStore, Operation.bind_ok (Operation.get_apply w), Operation.bind_ofExcept_ok hseal,
      Operation.bind_error (storage_error (congrArg Prod.fst happend)), happend]
  have hbatch : sealAndStoreMany (e :: es) clock w = (.error K.refusal, ⟨w.log, s'⟩) := by
    rw [sealAndStoreMany, Operation.bind_ok (Operation.get_apply w),
      Operation.bind_ofExcept_ok hmany, if_neg (by simp),
      Operation.bind_error (storage_error (congrArg Prod.fst happendMany)), happendMany]
  rw [Operation.bind_error hsingle, hbatch]
  exact ⟨rfl, rfl, hview'.trans hview.symm⟩

theorem sealAndStoreMany_ok (K : Sink P S) {w : World P S} {entries : List BatchEntry}
    {clock : ℕ → PyStr} {r : AuditRecord} {rs : List AuditRecord}
    (hmany : w.log.sealMany entries clock w.log.last = .ok (r :: rs))
    (hall : ∀ x ∈ r :: rs, x.Finished P ∧ K.Storable x.keyId x.signerId) : ∃ s,
      sealAndStoreMany entries clock w
          = (.ok (r :: rs), ⟨w.log.withTail (r :: rs).getLast? w.log.inited, s⟩) ∧
        K.view s = K.put (K.view w.store) (r :: rs) := by
  obtain ⟨s, happend, hview⟩ := K.appendMany_ok (List.cons_ne_nil r rs) hall w.store
  refine ⟨s, ?_, hview⟩
  rw [sealAndStoreMany, Operation.bind_ok (Operation.get_apply w),
    Operation.bind_ofExcept_ok hmany, if_neg (by simp),
    Operation.bind_ok (storage_ok (congrArg Prod.fst happend)), happend]
  rfl

/-- **A batch does what its entries do one by one**, when there are any and they can be
serialized. -/
theorem appendMany_sameOutcome (K : Sink P S) (w : World P S) {entries : List BatchEntry}
    (hne : entries ≠ []) (hentries : ∀ e ∈ entries, e.Serializable) {clock : ℕ → PyStr}
    (now : ℕ → PyStr) (hclock : ∀ i, clock i ≠ [] ∧ Encodable (clock i))
    (hown : FindsOwn K w entries) :
    SameOutcome K (appendMany entries clock w) (appendAll entries clock now w) := by
  obtain ⟨e, es, rfl⟩ := List.exists_cons_of_ne_nil hne
  rw [appendMany_eq, appendAll, append_eq e (hclock 0).1]
  rcases hfind : findTail w with ⟨err | u, w₁⟩
  · rw [Operation.bind_error hfind, Operation.bind_error (Operation.bind_error hfind)]
    exact ⟨rfl, rfl, rfl⟩
  obtain ⟨hview₁, hlog₁⟩ := findTail_sink K w
  rw [hfind] at hview₁ hlog₁
  obtain ⟨last, hlog₁⟩ := hlog₁ u rfl
  replace hlog₁ : w₁.log = w.log.withTail last true := hlog₁
  rw [Operation.bind_assoc, Operation.bind_ok hfind, Operation.bind_ok hfind]
  cases hseal : w₁.log.seal (w₁.log.recordFor e (clock 0) w₁.log.last) with
  | error err =>
    rw [sealAndStoreMany_seal_error (sealMany_cons_error hseal),
      Operation.bind_error (sealAndStore_seal_error hseal)]
    exact ⟨rfl, rfl, rfl⟩
  | ok r =>
    obtain ⟨rs, hmany⟩ := sealMany_of_first clock hseal (List.forall_mem_cons.mp hentries).2
      fun i => (hclock i).2
    rcases storable_or_refused K hmany with hall | hall
    · obtain ⟨s, hbatch, hview⟩ := sealAndStoreMany_ok K hmany hall
      have hmany' : w.log.sealMany (e :: es) clock w₁.log.last = .ok (r :: rs) := by
        rw [← hmany, hlog₁, withTail_sealMany]
      obtain ⟨w', hsingles, hview', hlog'⟩ := appendAll_run K (e :: es) clock now
        (w := w) ⟨w₁, hfind, rfl, rfl⟩ hown hmany' (fun i => (hclock i).1)
        fun x hx => (hall x hx).2
      rw [appendAll, append_eq e (hclock 0).1, Operation.bind_assoc, Operation.bind_ok hfind]
        at hsingles
      rw [hbatch, hsingles]
      refine ⟨rfl, ?_, ?_⟩
      · rw [hlog', List.getLast?_cons, hlog₁]
        rfl
      · rw [hview', ← show K.view w₁.store = K.view w.store from hview₁]
        exact hview
    · exact sameOutcome_refused K hseal hmany hall

/-- A batch without entries stores nothing, and returns nothing once the tail is found. -/
theorem appendMany_nil (K : Sink P S) (w : World P S) (clock : ℕ → PyStr) :
    K.view (appendMany [] clock w).2.store = K.view w.store ∧
      ((findTail w).1 = .ok () → (appendMany [] clock w).1 = .ok []) := by
  have hview := (findTail_sink K w).1
  rw [appendMany_eq]
  rcases hfind : findTail w with ⟨err | u, w₁⟩
  · rw [hfind] at hview
    rw [Operation.bind_error hfind]
    exact ⟨hview, fun h => by cases h⟩
  · rw [hfind] at hview
    rw [Operation.bind_ok hfind]
    exact ⟨hview, fun _ => rfl⟩

/-- **A batch with an entry that cannot be serialized** raises and stores nothing. -/
theorem appendMany_not_serializable (K : Sink P S) (w : World P S) {entries : List BatchEntry}
    (clock : ℕ → PyStr) (h : ∃ e ∈ entries, ¬e.Serializable) :
    ∃ err w', appendMany entries clock w = (.error err, w') ∧
      K.view w'.store = K.view w.store := by
  obtain ⟨e, he, hnot⟩ := h
  have hview := (findTail_sink K w).1
  rw [appendMany_eq]
  rcases hfind : findTail w with ⟨err | u, w₁⟩
  · rw [hfind] at hview
    exact ⟨err, w₁, Operation.bind_error hfind, hview⟩
  rw [hfind] at hview
  cases hmany : w₁.log.sealMany entries clock w₁.log.last with
  | error err =>
    refine ⟨err, w₁, ?_, hview⟩
    rw [Operation.bind_ok hfind, sealAndStoreMany_seal_error hmany]
  | ok rs => exact absurd (serializable_of_sealMany hmany e he) hnot

end World

end AuditChain
