/-
AuditChain/StandIns.lean

Storages that stand in for a list.

A `StandIn` is a backend that does what `MemoryBackend` does, as long as the records fit
into it: it may give a record back with other metadata, if the record still has the same
payload.  A log cannot tell the two apart.  Whatever is called on it, it answers the
same on both storages, and so do verification, checkpoints and proofs afterwards:

    StandIn.run_spec    a run on the storage, and the same run on the list
-/
import AuditChain.Batches
import AuditChain.Runs
import AuditChain.Simulation
import AuditChain.Stored

namespace AuditChain

open Python Machine Operation

/-- The storage of `MemoryBackend`. -/
abbrev memoryStorage : StorageBackend := memoryBackend.toStorageBackend

variable (P : Runtime)

/-- The records differ in their metadata at most, and not in what is hashed. -/
structure Alike (r r' : AuditRecord) : Prop where
  fields : r = { r' with metadata := r.metadata }
  payload : r.toPayloadBytes P = r'.toPayloadBytes P

/-- A backend that stands in for a list of records. -/
structure StandIn (B : StorageBackend) where
  /-- These records are stored, and the backend is open or can be opened. -/
  Found : B.State → List AuditRecord → Prop
  /-- The backend is open and holds these records. -/
  Holds : B.State → List AuditRecord → Prop
  /-- It can hold these records. -/
  Fits : List AuditRecord → Prop
  found_of_holds : ∀ {s rs}, Holds s rs → Found s rs
  fits_of_append : ∀ {rs rs'}, Fits (rs ++ rs') → Fits rs
  init : Simulates Found Holds Fits (· = ·) B.init memoryStorage.init
  append : ∀ r, Simulates Holds Holds Fits (· = ·) (B.append r) (memoryStorage.append r)
  appendMany : ∀ rs, rs ≠ [] →
    Simulates Holds Holds Fits (· = ·) (B.appendMany rs) (memoryStorage.appendMany rs)
  load : Simulates Holds Holds Fits (List.Forall₂ (Alike P)) B.load memoryStorage.load
  loadLast : Simulates Holds Holds Fits (Option.Rel (Alike P)) B.loadLast memoryStorage.loadLast

variable {P}

/-! ### Records that are alike -/

namespace Alike

variable {r r' : AuditRecord}

theorem refl (r : AuditRecord) : Alike P r r := ⟨rfl, rfl⟩

theorem sameEnd (h : Alike P r r') : SameEnd r r' :=
  ⟨by rw [h.fields], by rw [h.fields]⟩

theorem rel_sameEnd {o o' : Option AuditRecord} (h : Option.Rel (Alike P) o o') :
    Option.Rel SameEnd o o' := by
  cases h with
  | none => exact .none
  | some hr => exact .some hr.sameEnd

theorem hashInput_eq (h : Alike P r r') : hashInput P r = hashInput P r' := by
  rw [hashInput, hashInput, h.payload, show r.prevHash = r'.prevHash by rw [h.fields]]

/-- Nothing in the loop body depends on the rest. -/
theorem checkRecord_eq (h : Alike P r r') (M : KeyMaterial P) (index : ℕ) (prevHash : PyStr) :
    checkRecord M index prevHash r = checkRecord M index prevHash r' := by
  have hhash : ∀ key, computeRecordHash P r key = computeRecordHash P r' key := by
    intro key
    rw [computeRecordHash, computeRecordHash, h.hashInput_eq]
  unfold checkRecord
  rw [hhash]
  obtain ⟨metadata, hr⟩ : ∃ metadata, r = { r' with metadata := metadata } := ⟨_, h.fields⟩
  rw [hr]
  rfl

end Alike

section

variable {rs rs' : List AuditRecord}

theorem map_hash_of_alike (h : List.Forall₂ (Alike P) rs rs') :
    rs.map AuditRecord.hash = rs'.map AuditRecord.hash := by
  induction h with
  | nil => rfl
  | cons hr _ ih => rw [List.map_cons, List.map_cons, ih, hr.sameEnd.hash]

theorem getElem?_of_alike (h : List.Forall₂ (Alike P) rs rs') :
    ∀ i : ℕ, Option.Rel (Alike P) rs[i]? rs'[i]? := by
  induction h with
  | nil => exact fun i => .none
  | @cons r r' rs rs' hr _ ih =>
    intro i
    cases i with
    | zero => exact .some hr
    | succ i =>
      rw [List.getElem?_cons_succ, List.getElem?_cons_succ]
      exact ih i

theorem getLast?_of_alike (h : List.Forall₂ (Alike P) rs rs') :
    Option.Rel (Alike P) rs.getLast? rs'.getLast? := by
  rw [List.getLast?_eq_getElem?, List.getLast?_eq_getElem?, h.length_eq]
  exact getElem?_of_alike h _

theorem verifyLoop_of_alike (h : List.Forall₂ (Alike P) rs rs') (M : KeyMaterial P) :
    ∀ signed index prevHash,
      verifyLoop M signed index prevHash rs = verifyLoop M signed index prevHash rs' := by
  induction h with
  | nil => exact fun _ _ _ => rfl
  | @cons r r' rs rs' hr hrs ih =>
    intro signed index prevHash
    have hseq := hr.sameEnd.seq
    have hhash := hr.sameEnd.hash
    simp only [verifyLoop, hr.checkRecord_eq, hseq, hhash, ih]

theorem checkAnchor_of_alike (h : List.Forall₂ (Alike P) rs rs') (c : Checkpoint) :
    checkAnchor rs c = checkAnchor rs' c := by
  have hget : SameResult (Alike P) (listGet rs c.seq) (listGet rs' c.seq) := by
    have helem := getElem?_of_alike h (if c.seq < 0 then c.seq + rs'.length else c.seq).toNat
    unfold listGet
    rw [h.length_eq]
    generalize rs[(if c.seq < 0 then c.seq + rs'.length else c.seq).toNat]? = x at helem ⊢
    generalize rs'[(if c.seq < 0 then c.seq + rs'.length else c.seq).toNat]? = y at helem ⊢
    cases helem with
    | none => exact rfl
    | some hr =>
      dsimp only
      split
      · exact rfl
      · exact hr
  unfold checkAnchor
  rw [h.length_eq]
  rcases hx : listGet rs c.seq with e | r <;> rcases hy : listGet rs' c.seq with e' | r' <;>
    rw [hx, hy] at hget
  · obtain rfl : e = e' := hget
    rfl
  · exact hget.elim
  · exact hget.elim
  · have hend := Alike.sameEnd hget
    simp only [ok_bind, hend.hash, hend.seq]

/-- **The same verdict.** -/
theorem verifyChain_of_alike (h : List.Forall₂ (Alike P) rs rs') (M : KeyMaterial P)
    (expectedCount : Option ℤ) (checkpoint : Option Checkpoint) :
    verifyChain rs M expectedCount checkpoint = verifyChain rs' M expectedCount checkpoint := by
  have hanchor : checkAnchor rs = checkAnchor rs' := funext (checkAnchor_of_alike h)
  have hcount : checkCount rs = checkCount rs' := by
    funext n
    rw [checkCount, checkCount, h.length_eq]
  have hfinish : finishReport rs = finishReport rs' := by
    funext c signed root
    rw [finishReport, finishReport, h.length_eq]
  simp only [verifyChain, verifyRecords, hanchor, hcount, hfinish, verifyLoop_of_alike h,
    map_hash_of_alike h]

end

/-! ### The operations of a log -/

namespace StandIn

variable {B : StorageBackend} (K : StandIn P B)

/-- The logs are the same, and their tails end in the same way. -/
def Twins (log log' : AuditLog P) : Prop :=
  ∃ last, Option.Rel SameEnd last log'.last ∧ log = log'.withTail last log'.inited

theorem twins_self (log : AuditLog P) : Twins log log := by
  refine ⟨log.last, ?_, rfl⟩
  cases log.last with
  | none => exact .none
  | some r => exact .some ⟨rfl, rfl⟩

/-- The same log on storages with the same records. -/
structure Worlds (w : World P B) (w' : World P memoryStorage) : Prop where
  store : K.Found w.store w'.store
  opened : w'.log.inited = true → K.Holds w.store w'.store
  log : Twins w.log w'.log

/-- They are, and the storages are open. -/
structure OpenWorlds (w : World P B) (w' : World P memoryStorage) : Prop where
  store : K.Holds w.store w'.store
  log : Twins w.log w'.log

/-- The storage of the list is within what fits. -/
def Within (w : World P memoryStorage) : Prop := K.Fits w.store

/-- A log operation does the same on both storages, whether they are open or not. -/
abbrev Opens {α : Type} (Q : α → α → Prop) (op : World.Op P B α)
    (op' : World.Op P memoryStorage α) : Prop :=
  Simulates K.Worlds K.OpenWorlds K.Within Q op op'

/-- A log operation does the same on both storages, when they are open. -/
abbrev Follows {α : Type} (Q : α → α → Prop) (op : World.Op P B α)
    (op' : World.Op P memoryStorage α) : Prop :=
  Simulates K.OpenWorlds K.OpenWorlds K.Within Q op op'

variable {K}

theorem OpenWorlds.worlds {w : World P B} {w' : World P memoryStorage} (h : K.OpenWorlds w w') :
    K.Worlds w w' :=
  ⟨K.found_of_holds h.store, fun _ => h.store, h.log⟩

/-- An operation that only adds to the list. -/
theorem stays_storage {α : Type} {y : Operation PyError (List AuditRecord) α}
    (h : ∀ rs, ∃ rs', (y rs).2 = rs ++ rs') :
    Stays K.Within (World.storage y : World.Op P memoryStorage α) := by
  constructor
  intro w hfits
  obtain ⟨rs', hrs'⟩ := h w.store
  have hlast : K.Fits (y w.store).2 := hfits
  rw [hrs'] at hlast
  exact K.fits_of_append hlast

instance stays_storageInit : Stays K.Within (World.storage memoryStorage.init : World.Op P _ _) :=
  stays_storage fun _ => ⟨[], (List.append_nil _).symm⟩

instance stays_storageLoad : Stays K.Within (World.storage memoryStorage.load : World.Op P _ _) :=
  stays_storage fun _ => ⟨[], (List.append_nil _).symm⟩

instance stays_storageLoadLast :
    Stays K.Within (World.storage memoryStorage.loadLast : World.Op P _ _) :=
  stays_storage fun _ => ⟨[], (List.append_nil _).symm⟩

instance stays_storageAppend (r : AuditRecord) :
    Stays K.Within (World.storage (memoryStorage.append r) : World.Op P _ _) :=
  stays_storage fun _ => ⟨[r], rfl⟩

instance stays_storageAppendMany (rs : List AuditRecord) :
    Stays K.Within (World.storage (memoryStorage.appendMany rs) : World.Op P _ _) :=
  stays_storage fun xs => ⟨rs, memoryBackend.appendMany_contents rs xs⟩

instance stays_modifyLog (f : AuditLog P → AuditLog P) :
    Stays K.Within (World.modifyLog f : World.Op P memoryStorage Unit) :=
  ⟨fun _ h => h⟩

instance stays_init : Stays K.Within (World.init : World.Op P memoryStorage Unit) := by
  unfold World.init
  infer_instance

instance stays_ensureInited :
    Stays K.Within (World.ensureInited : World.Op P memoryStorage Unit) := by
  unfold World.ensureInited
  infer_instance

instance stays_refreshTail :
    Stays K.Within (World.refreshTail : World.Op P memoryStorage Unit) := by
  unfold World.refreshTail
  infer_instance

instance stays_append (actor action subject : PyStr) (metadata : Option PyDict)
    (timestamp : Option PyStr) (now : PyStr) : Stays K.Within
      (World.append actor action subject metadata timestamp now : World.Op P memoryStorage _) := by
  unfold World.append
  infer_instance

instance stays_appendMany (entries : List BatchEntry) (clock : ℕ → PyStr) :
    Stays K.Within (World.appendMany entries clock : World.Op P memoryStorage _) := by
  unfold World.appendMany
  infer_instance

instance stays_rotate (newSealKey : Bytes) (newKeyId actor now : PyStr) : Stays K.Within
    (World.rotate newSealKey newKeyId actor now : World.Op P memoryStorage _) := by
  unfold World.rotate
  infer_instance

instance stays_read :
    Stays K.Within (World.read : World.Op P memoryStorage (List AuditRecord)) := by
  unfold World.read
  infer_instance

/-- **The calls** remove nothing. -/
instance stays_exec (c : Call P) :
    Stays K.Within (c.exec : World.Op P memoryStorage (List AuditRecord)) := by
  cases c <;>
    · unfold Call.exec
      infer_instance

/-! ### The same answers -/

/-- An operation of the storage. -/
theorem follows_storage {α : Type} {Q : α → α → Prop} {x : Operation PyError B.State α}
    {y : Operation PyError (List AuditRecord) α} (h : Simulates K.Holds K.Holds K.Fits Q x y) :
    K.Follows Q (World.storage x) (World.storage y) :=
  h.zoom (fun _ _ hw => hw.store) (fun _ _ hfits => hfits)
    fun _ _ _ _ hw hstore => ⟨hstore, hw.log⟩

theorem follows_modifyLog {f g : AuditLog P → AuditLog P}
    (h : ∀ log last, Option.Rel SameEnd last log.last →
      Twins (f (log.withTail last log.inited)) (g log)) :
    K.Follows (· = ·) (World.modifyLog f) (World.modifyLog g) := by
  apply simulates_modify
  rintro w w' ⟨hstore, last, hlast, hlog⟩
  refine ⟨hstore, ?_⟩
  show Twins (f w.log) (g w'.log)
  rw [hlog]
  exact h w'.log last hlast

theorem opens_init : K.Opens (· = ·) World.init World.init := by
  have hinit : K.Opens (· = ·) (World.storage B.init) (World.storage memoryStorage.init) :=
    K.init.zoom (fun _ _ hw => hw.store) (fun _ _ hfits => hfits)
      fun _ _ _ _ hw hstore => ⟨hstore, hw.log⟩
  refine hinit.bind fun _ _ _ => ?_
  refine (follows_storage K.load).bind fun rs rs' hrs => ?_
  apply follows_modifyLog
  intro log last _
  exact ⟨rs.getLast?, Alike.rel_sameEnd (getLast?_of_alike hrs), rfl⟩

theorem opens_ensureInited : K.Opens (· = ·) World.ensureInited World.ensureInited := by
  intro w w' hw hin
  obtain ⟨last, -, hlog⟩ := hw.log
  have hsame : w.log.inited = w'.log.inited := by
    rw [hlog]
    rfl
  by_cases hinited : w'.log.inited = true
  · rw [World.ensureInited_of_inited hinited, World.ensureInited_of_inited (hsame.trans hinited)]
    exact ⟨rfl, hw.opened hinited, hw.log⟩
  · have hnot : ¬w.log.inited = true := by rwa [hsame]
    rw [World.ensureInited_of_not_inited hinited] at hin ⊢
    rw [World.ensureInited_of_not_inited hnot]
    exact opens_init w w' hw hin

theorem follows_refreshTail : K.Follows (· = ·) World.refreshTail World.refreshTail := by
  refine simulates_get.bind fun w w' hw => ?_
  obtain ⟨last, -, hlog⟩ := hw.log
  rw [show w.log.shared = w'.log.shared by rw [hlog]; rfl]
  split
  · refine (follows_storage K.loadLast).bind fun o o' ho => ?_
    apply follows_modifyLog
    intro log last _
    exact ⟨o, Alike.rel_sameEnd ho, rfl⟩
  · exact simulates_pure rfl

/-- Logs with tails that end in the same way build the same record. -/
theorem buildRecord_of_twins {log log' : AuditLog P} (h : Twins log log')
    (actor action subject : PyStr) (metadata : PyDict) (timestamp : Option PyStr) (now : PyStr) :
    log.buildRecord actor action subject metadata timestamp now log.last
      = log'.buildRecord actor action subject metadata timestamp now log'.last := by
  obtain ⟨last, hlast, rfl⟩ := h
  rw [withTail_buildRecord, withTail_last]
  generalize log'.last = last' at hlast
  cases hlast with
  | none => rfl
  | some hr =>
    rw [AuditLog.buildRecord, AuditLog.buildRecord]
    simp only [hr.seq, hr.hash]

theorem seal_of_twins {log log' : AuditLog P} (h : Twins log log') : log.seal = log'.seal := by
  obtain ⟨last, -, rfl⟩ := h
  rfl

/-- The first record of a batch is built on the tail, and the others do not see it. -/
theorem sealMany_of_twins {log log' : AuditLog P} (h : Twins log log') (entries : List BatchEntry)
    (clock : ℕ → PyStr) :
    log.sealMany entries clock log.last = log'.sealMany entries clock log'.last := by
  cases entries with
  | nil => rfl
  | cons e es =>
    rw [AuditLog.sealMany, AuditLog.sealMany, buildRecord_of_twins h, seal_of_twins h]
    obtain ⟨last, -, rfl⟩ := h
    simp only [withTail_sealMany]

/-- The end of both ways to append. -/
theorem follows_setTail {α : Type} (tail : Option AuditRecord) (a : α) :
    K.Follows (· = ·)
      (World.modifyLog (fun log => { log with last := tail }) >>= fun _ => pure a)
      (World.modifyLog (fun log => { log with last := tail }) >>= fun _ => pure a) := by
  have htail : Option.Rel SameEnd tail tail := by
    cases tail with
    | none => exact .none
    | some r => exact .some ⟨rfl, rfl⟩
  have hmodify : K.Follows (· = ·) (World.modifyLog fun log => { log with last := tail })
      (World.modifyLog fun log => { log with last := tail }) :=
    follows_modifyLog fun log last _ => ⟨tail, htail, rfl⟩
  exact hmodify.bind fun _ _ _ => simulates_pure rfl

theorem opens_append (actor action subject : PyStr) (metadata : Option PyDict)
    (timestamp : Option PyStr) (now : PyStr) :
    K.Opens (· = ·) (World.append actor action subject metadata timestamp now)
      (World.append actor action subject metadata timestamp now) := by
  refine opens_ensureInited.bind fun _ _ _ => ?_
  refine follows_refreshTail.bind fun _ _ _ => ?_
  refine simulates_get.bind fun w w' hw => ?_
  rw [buildRecord_of_twins hw.log, seal_of_twins hw.log]
  refine (simulates_ofExcept _).bind fun r r' hr => ?_
  obtain rfl : r = r' := hr
  refine (follows_storage (K.append r)).bind fun _ _ _ => ?_
  exact follows_setTail _ _

theorem opens_appendMany (entries : List BatchEntry) (clock : ℕ → PyStr) :
    K.Opens (· = ·) (World.appendMany entries clock) (World.appendMany entries clock) := by
  refine opens_ensureInited.bind fun _ _ _ => ?_
  refine follows_refreshTail.bind fun _ _ _ => ?_
  refine simulates_get.bind fun w w' hw => ?_
  rw [sealMany_of_twins hw.log]
  refine (simulates_ofExcept _).bind fun rs rs' hrs => ?_
  obtain rfl : rs = rs' := hrs
  split
  · exact simulates_pure rfl
  · rename_i hne
    have hmany := K.appendMany rs (by simpa using hne)
    exact (follows_storage hmany).bind fun _ _ _ => follows_setTail _ _

/-- A key that is too short is refused before the storage is opened. -/
theorem simulates_rotate (newSealKey : Bytes) (newKeyId actor now : PyStr) :
    Simulates K.Worlds K.Worlds K.Within (· = ·) (World.rotate newSealKey newKeyId actor now)
      (World.rotate newSealKey newKeyId actor now) := by
  unfold World.rotate
  split
  · rename_i hlong
    refine Simulates.weaken ?_ fun _ _ => OpenWorlds.worlds
    refine opens_ensureInited.bind fun _ _ _ => ?_
    refine simulates_get.bind fun w w' hw => ?_
    obtain ⟨last, -, hlog⟩ := hw.log
    rw [show w.log.rotationMetadata newKeyId = w'.log.rotationMetadata newKeyId by rw [hlog]; rfl]
    have hmarker := opens_append (K := K) actor (lit "key.rotate") (lit "key:" ++ newKeyId)
      (some (w'.log.rotationMetadata newKeyId)) none now
    refine Simulates.bind (fun v v' hv => hmarker v v' hv.worlds) fun r r' hr => ?_
    obtain rfl : r = r' := hr
    have hkey : K.Follows (· = ·)
        (World.modifyLog fun log => log.withKey newSealKey newKeyId hlong)
        (World.modifyLog fun log => log.withKey newSealKey newKeyId hlong) :=
      follows_modifyLog fun log last hlast => ⟨last, hlast, rfl⟩
    exact hkey.bind fun _ _ _ => simulates_pure rfl
  · exact simulates_raise _

theorem simulates_reopen (cfg : Config P) :
    Simulates K.Worlds K.Worlds K.Within (· = ·) (Call.reopen cfg).exec (Call.reopen cfg).exec := by
  intro w w' hw hin
  cases hnew : AuditLog.new cfg with
  | error e =>
    -- the arguments are refused and the log at hand stays
    have hsame : ∀ {B' : StorageBackend} (v : World P B'),
        (Call.reopen cfg).exec v = (.error e, v) := by
      intro B' v
      rw [Call.exec, Operation.bind_ofExcept_error hnew]
    rw [hsame, hsame]
    exact ⟨rfl, hw⟩
  | ok log =>
    have hopen : ∀ {B' : StorageBackend} (v : World P B'), (Call.reopen cfg).exec v
        = (World.init >>= fun _ => pure [] : World.Op P B' (List AuditRecord))
            { v with log := log } := by
      intro B' v
      rw [Call.exec, Operation.bind_ofExcept_ok hnew, World.modifyLog,
        Operation.bind_ok (Operation.modify_apply _ _)]
    have hclosed : log.inited = false := new_inited hnew
    have hfresh : K.Worlds { w with log := log } { w' with log := log } :=
      ⟨hw.store, fun hinited => absurd (hclosed.symm.trans hinited) Bool.false_ne_true,
        twins_self log⟩
    have hinit : Simulates K.Worlds K.Worlds K.Within (· = ·)
        (World.init >>= fun _ => pure [] : World.Op P B (List AuditRecord))
        (World.init >>= fun _ => pure []) :=
      (opens_init.bind fun _ _ _ => simulates_pure rfl).weaken fun _ _ => OpenWorlds.worlds
    rw [hopen] at hin ⊢
    rw [hopen]
    exact hinit _ _ hfresh hin

/-- **Every call** does the same. -/
theorem simulates_exec (c : Call P) :
    Simulates K.Worlds K.Worlds K.Within (· = ·) c.exec c.exec := by
  cases c with
  | init =>
    refine Simulates.weaken ?_ fun _ _ => OpenWorlds.worlds
    exact opens_init.bind fun _ _ _ => simulates_pure rfl
  | reopen cfg => exact simulates_reopen cfg
  | append actor action subject metadata timestamp now =>
    refine Simulates.weaken ?_ fun _ _ => OpenWorlds.worlds
    refine (opens_append _ _ _ _ _ _).bind fun r r' hr => ?_
    obtain rfl : r = r' := hr
    exact simulates_pure rfl
  | appendMany entries clock =>
    exact (opens_appendMany entries clock).weaken fun _ _ => OpenWorlds.worlds
  | rotate newSealKey newKeyId actor now =>
    refine (simulates_rotate _ _ _ _).bind fun r r' hr => ?_
    obtain rfl : r = r' := hr
    exact simulates_pure rfl

end StandIn

/-! ### Runs -/

/-- One call, with what it returns or raises. -/
def Call.answer {B : StorageBackend} (c : Call P) (w : World P B) :
    List (Except PyError (List AuditRecord)) × World P B :=
  ([(c.exec w).1], (c.exec w).2)

/-- A run, with what every call returns or raises. -/
abbrev answers {B : StorageBackend} (calls : List (Call P)) (w : World P B) :
    List (Except PyError (List AuditRecord)) × World P B :=
  run Call.answer calls w

theorem answers_snd {B : StorageBackend} (calls : List (Call P)) (w : World P B) :
    (answers calls w).2 = (runCalls calls w).2 := by
  induction calls generalizing w with
  | nil => rfl
  | cons c calls ih =>
    have hstep : (c.answer w).2 = (c.step w).2 := by
      rw [Call.step, Call.answer]
      rcases c.exec w with ⟨e | rs, w'⟩ <;> rfl
    rw [answers, run_cons, runCalls, run_cons]
    show (answers calls (c.answer w).2).2 = _
    rw [ih, hstep]

/-- Whoever asks the logs about their records is told the same. -/
structure SameView {B B' : StorageBackend} (w : World P B) (w' : World P B') : Prop where
  read : SameResult (List.Forall₂ (Alike P)) (World.read w).1 (World.read w').1
  verify : ∀ expectedCount checkpoint signers,
    (World.verify expectedCount checkpoint signers w).1
      = (World.verify expectedCount checkpoint signers w').1
  checkpoint : (World.checkpoint w).1 = (World.checkpoint w').1
  merkleRoot : (World.merkleRoot w).1 = (World.merkleRoot w').1
  inclusionProof : ∀ seq, (World.inclusionProof seq w).1 = (World.inclusionProof seq w').1

namespace StandIn

variable {B : StorageBackend} {K : StandIn P B}

theorem opens_read : K.Opens (List.Forall₂ (Alike P)) World.read World.read :=
  opens_ensureInited.bind fun _ _ _ => follows_storage K.load

/-- What is made of the hashes alone. -/
theorem opens_hashes {α : Type} (f : List PyStr → Except PyError α) :
    K.Opens (· = ·)
      (World.read >>= fun rs => Operation.ofExcept (f (rs.map AuditRecord.hash)))
      (World.read >>= fun rs => Operation.ofExcept (f (rs.map AuditRecord.hash))) := by
  refine opens_read.bind fun rs rs' hrs => ?_
  rw [map_hash_of_alike hrs]
  exact simulates_ofExcept _

theorem makeCheckpoint_of_alike {r r' : AuditRecord} (h : Alike P r r') :
    makeCheckpoint P r = makeCheckpoint P r' := by
  obtain ⟨metadata, hr⟩ : ∃ metadata, r = { r' with metadata := metadata } := ⟨_, h.fields⟩
  rw [hr]
  rfl

theorem opens_checkpoint : K.Opens (· = ·) World.checkpoint World.checkpoint := by
  refine Simulates.bind (k := fun rs => by split <;> infer_instance) opens_read
    fun rs rs' hrs => ?_
  have hlast := getLast?_of_alike hrs
  generalize rs.getLast? = o at hlast
  generalize rs'.getLast? = o' at hlast
  cases hlast with
  | none => exact simulates_raise _
  | some hr =>
    refine simulates_get.bind fun w w' hw => ?_
    obtain ⟨last, -, hlog⟩ := hw.log
    rw [map_hash_of_alike hrs]
    refine (simulates_ofExcept _).bind fun root root' hroot => ?_
    obtain rfl : root = root' := hroot
    rw [makeCheckpoint_of_alike hr, show w.log.sealKey = w'.log.sealKey by rw [hlog]; rfl,
      show w.log.signingKey = w'.log.signingKey by rw [hlog]; rfl,
      show w.log.signerId = w'.log.signerId by rw [hlog]; rfl]
    exact simulates_ofExcept _

theorem verify_eq {w : World P B} {w' : World P memoryStorage} (hw : K.Worlds w w')
    (hfits : K.Fits (World.read w').2.store) (expectedCount : Option ℤ)
    (checkpoint : Option Checkpoint) (signers : Option (StrDict (KeyArg P.PublicKey))) :
    (World.verify expectedCount checkpoint signers w).1
      = (World.verify expectedCount checkpoint signers w').1 := by
  obtain ⟨hres, hnext⟩ := opens_read w w' hw hfits
  rcases hx : World.read w with ⟨rx, v⟩
  rcases hy : World.read w' with ⟨ry, v'⟩
  rw [hx, hy] at hres hnext
  simp only [World.verify, hx, hy]
  rcases rx with e | rs <;> rcases ry with e' | rs'
  · obtain rfl : e = e' := hres
    rfl
  · exact hres.elim
  · exact hres.elim
  · obtain ⟨last, -, hlog⟩ := hnext.log
    have hmaterial : v.log.keyMaterial signers = v'.log.keyMaterial signers := by
      rw [hlog, withTail_keyMaterial]
    dsimp only
    rw [hmaterial, verifyChain_of_alike hres]

/-! ### What a run leaves -/

/-- Reading leaves the list as it is. -/
theorem store_read (w : World P memoryStorage) : (World.read w).2.store = w.store := by
  by_cases hinited : w.log.inited = true
  · rw [World.read, Operation.bind_ok (World.ensureInited_of_inited hinited)]
    rfl
  · obtain ⟨s, hs, hcont⟩ := World.init_spec w
    rw [World.read, Operation.bind_ok ((World.ensureInited_of_not_inited hinited).trans hs)]
    exact hcont

theorem store_bind_read {α : Type} {g : List AuditRecord → World.Op P memoryStorage α}
    (hg : ∀ rs w, (g rs w).2.store = w.store) (w : World P memoryStorage) :
    ((World.read >>= g) w).2.store = w.store := by
  rcases hread : World.read w with ⟨e | rs, v⟩ <;> have hstore := store_read w <;>
    rw [hread] at hstore
  · rw [Operation.bind_error hread]
    exact hstore
  · rw [Operation.bind_ok hread, hg]
    exact hstore

theorem store_checkpoint (w : World P memoryStorage) :
    (World.checkpoint w).2.store = w.store := by
  refine store_bind_read (fun rs w => ?_) w
  cases rs.getLast? with
  | none => rfl
  | some r =>
    show ((Operation.get >>= fun v => Operation.ofExcept
      (AuditChain.merkleRoot P (rs.map AuditRecord.hash)) >>= fun root => Operation.ofExcept
        (makeCheckpoint P r v.log.sealKey root (v.log.signingKey.map KeyArg.object)
          v.log.signerId) : World.Op P memoryStorage Checkpoint) w).2.store = w.store
    rw [Operation.bind_ok (Operation.get_apply w)]
    cases hroot : AuditChain.merkleRoot P (rs.map AuditRecord.hash) with
    | error e => rfl
    | ok root => rfl

/-- Related logs show the same. -/
theorem sameView {w : World P B} {w' : World P memoryStorage} (hw : K.Worlds w w')
    (hfits : K.Fits w'.store) : SameView w w' where
  read := (opens_read w w' hw (by rw [Within, store_read]; exact hfits)).1
  verify := verify_eq hw (by rw [store_read]; exact hfits)
  checkpoint :=
    (opens_checkpoint w w' hw (by rw [Within, store_checkpoint]; exact hfits)).1.eq
  merkleRoot := by
    refine (opens_hashes (merkleRoot P) w w' hw ?_).1.eq
    rw [Within, store_bind_read fun _ _ => rfl]
    exact hfits
  inclusionProof seq := by
    refine (opens_hashes (merkleProof P · seq) w w' hw ?_).1.eq
    rw [Within, store_bind_read fun _ _ => rfl]
    exact hfits

/-- A new log on a storage, and on the list of what is stored there. -/
theorem worlds_of_new {cfg : Config P} {log : AuditLog P} (hnew : AuditLog.new cfg = .ok log)
    {s : B.State} {rs : List AuditRecord} (hfound : K.Found s rs) :
    K.Worlds (⟨log, s⟩ : World P B) ⟨log, rs⟩ := by
  refine ⟨hfound, fun hinited => ?_, twins_self log⟩
  exact absurd ((new_inited hnew).symm.trans hinited) Bool.false_ne_true

/-- **A log cannot tell.**  Calls are answered the same, and show the same afterwards. -/
theorem run_spec (K : StandIn P B) (calls : List (Call P)) {w : World P B}
    {w' : World P memoryStorage} (hw : K.Worlds w w') (hfits : K.Fits (runCalls calls w').2.store) :
    (answers calls w).1 = (answers calls w').1 ∧
      K.Found (answers calls w).2.store (runCalls calls w').2.store ∧
        SameView (answers calls w).2 (runCalls calls w').2 := by
  have hstep : ∀ (c : Call P) (v : World P B) (v' : World P memoryStorage), K.Worlds v v' →
      K.Within (c.answer v').2 → (c.answer v).1.map id = (c.answer v').1.map id ∧
        K.Worlds (c.answer v).2 (c.answer v').2 := by
    intro c v v' hv hin
    obtain ⟨hres, hnext⟩ := simulates_exec c v v' hv hin
    refine ⟨?_, hnext⟩
    rw [Call.answer, Call.answer, hres.eq]
  rw [← answers_snd] at hfits ⊢
  obtain ⟨hout, hend⟩ := run_simulates id id hstep (fun c v hin => (stays_exec c).back v hin) calls
    hw hfits
  rw [List.map_id, List.map_id] at hout
  exact ⟨hout, hend.store, sameView hend hfits⟩

end StandIn

/-! ### Records that come back -/

variable (P) in
/-- A record that was sealed comes back with its payload: its floats are read back as they are
printed, the keys in its metadata are in order, and its ids can be encoded. -/
structure AuditRecord.Keepable (r : AuditRecord) : Prop where
  floats : r.FloatsKept P
  ordered : (PyVal.dict r.metadata).KeysOrdered P.floats
  keyId : Encodable r.keyId
  signerId : Encodable r.signerId

theorem alike_reloaded {r : AuditRecord} (hsealed : r.Finished P)
    (hordered : (PyVal.dict r.metadata).KeysOrdered P.floats) : Alike P (r.reloaded P) r := by
  refine ⟨rfl, ?_⟩
  obtain ⟨data, hdata⟩ := hsealed.hashed
  obtain ⟨prev, b, -, hb, -⟩ := hashInput_eq_ok hdata
  exact (toPayloadBytes_reloaded_iff hb).mpr hordered

/-- Everything that a run left on the list was sealed. -/
theorem finished_of_run {calls : List (Call P)} {log : AuditLog P} (h : log.inited = false)
    {r : AuditRecord} (hr : r ∈ ((runCalls calls (⟨log, []⟩ : World P memoryStorage)).2.contents)) :
    r.Finished P := by
  have hopen : World.TailOk (⟨log, []⟩ : World P memoryStorage) := by
    intro hinited
    rw [show (⟨log, []⟩ : World P memoryStorage).log.inited = false from h] at hinited
    cases hinited
  have hist := run_history calls hopen
  rw [hist.contents, show World.contents (⟨log, []⟩ : World P memoryStorage) = [] from rfl,
    List.nil_append] at hr
  obtain ⟨e, he, rfl⟩ := List.mem_map.mp hr
  exact (hist.written e he).finished

end AuditChain
