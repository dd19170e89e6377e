/-
AuditChain/LogSteps.lean

What the operations of a log do, over a backend that keeps records in order.

One lemma for each operation says everything it can do: what it returns, what
is stored afterwards and which log is left behind.  Nothing after this module
looks inside an operation.

    append_cases, appendMany_cases, rotate_cases, read_spec, checkpoint_spec

A record that was written carries the marks of its writer (`WrittenBy`), and
follows the tail it was built on (`Follows`).
-/
import AuditChain.Log

namespace AuditChain

open Python HashChain

variable {P : Runtime}

/-! ### The cached tail -/

/-- The log with another tail.  Its keys are the same. -/
def AuditLog.withTail (log : AuditLog P) (last : Option AuditRecord) (inited : Bool) :
    AuditLog P :=
  { log with last := last, inited := inited }

section

variable (log : AuditLog P) (last : Option AuditRecord) (inited : Bool)

@[simp] theorem withTail_sealKey : (log.withTail last inited).sealKey = log.sealKey := rfl
@[simp] theorem withTail_keyId : (log.withTail last inited).keyId = log.keyId := rfl
@[simp] theorem withTail_keyring : (log.withTail last inited).keyring = log.keyring := rfl
@[simp] theorem withTail_signingKey : (log.withTail last inited).signingKey = log.signingKey := rfl
@[simp] theorem withTail_signerId : (log.withTail last inited).signerId = log.signerId := rfl
@[simp] theorem withTail_last : (log.withTail last inited).last = last := rfl
@[simp] theorem withTail_inited : (log.withTail last inited).inited = inited := rfl
@[simp] theorem withTail_withTail (last' : Option AuditRecord) (inited' : Bool) :
    (log.withTail last inited).withTail last' inited' = log.withTail last' inited' := rfl
@[simp] theorem withTail_seal : (log.withTail last inited).seal = log.seal := rfl
@[simp] theorem withTail_buildRecord :
    (log.withTail last inited).buildRecord = log.buildRecord := rfl
@[simp] theorem withTail_keyMaterial :
    (log.withTail last inited).keyMaterial = log.keyMaterial := rfl

theorem withTail_self : log.withTail log.last log.inited = log := rfl

theorem withTail_sealMany (es : List BatchEntry) (clock : ℕ → PyStr)
    (prev : Option AuditRecord) :
    (log.withTail last inited).sealMany es clock prev = log.sealMany es clock prev := by
  induction es generalizing clock prev with
  | nil => rfl
  | cons e es ih =>
    rw [AuditLog.sealMany, AuditLog.sealMany, withTail_seal, withTail_buildRecord]
    simp only [ih]

end

/-! ### What is written -/

/-- The records continue a chain whose last record is `prev`. -/
def Follows : Option AuditRecord → List AuditRecord → Prop
  | _, [] => True
  | prev, r :: rs =>
    r.seq = (prev.map fun p => p.seq + 1).getD 0 ∧
      r.prevHash = (prev.map AuditRecord.hash).getD GENESIS_HASH ∧ Follows (some r) rs

/-- The marks that a log leaves on a record it writes. -/
structure WrittenBy (log : AuditLog P) (r : AuditRecord) : Prop where
  keyId : r.keyId = if log.sealKey.isSome then log.keyId else []
  signerId : r.signerId = if log.signingKey.isSome then log.signerId else []
  hashed : ∃ data, hashInput P r = .ok data ∧ r.hash = (P.seal log.sealKey data).hex
  unsigned : log.signingKey = none → r.signature = []
  signed : ∀ key, log.signingKey = some key →
    ∃ message, recordSigningMessage r = .ok message ∧ r.signature = hexStr (P.sign key message).val

/-- Sealing fills in the hash and the signature. -/
theorem seal_spec {log : AuditLog P} {r r' : AuditRecord} (h : log.seal r = .ok r') :
    ∃ recordHash signature, r' = { r with hash := recordHash, signature := signature } ∧
      (∃ data, hashInput P r = .ok data ∧ recordHash = (P.seal log.sealKey data).hex) ∧
      (log.signingKey = none → signature = r.signature) ∧
      ∀ key, log.signingKey = some key → ∃ message,
        utf8Encode (recordSigningText r.seq recordHash r.signerId) = .ok message ∧
          signature = hexStr (P.sign key message).val := by
  unfold AuditLog.seal at h
  cases hhash : computeRecordHash P r log.sealKey with
  | error e =>
    -- whatever the class of the exception, nothing is sealed
    simp only [hhash] at h
    split at h <;> cases h
  | ok recordHash =>
    have hdata := computeRecordHash_eq_ok.mp hhash
    simp only [hhash] at h
    cases hkey : log.signingKey with
    | none =>
      simp only [hkey] at h
      exact ⟨recordHash, r.signature, (Except.ok.inj h).symm, hdata, (fun _ => rfl), (by simp)⟩
    | some key =>
      have hav := (log.signs (by rw [hkey]; rfl)).2
      simp only [hkey] at h
      obtain ⟨signature, hsign, h⟩ := bind_eq_ok.mp h
      obtain ⟨message, hmessage, hsign⟩ := bind_eq_ok.mp hsign
      rw [signMessage_object hav, Except.ok.injEq] at hsign
      refine ⟨recordHash, signature, (Except.ok.inj h).symm, hdata, (by simp), ?_⟩
      rintro key' hsome
      obtain rfl := Option.some.inj hsome
      exact ⟨message, hmessage, hsign.symm⟩

/-- A record that was built and sealed carries the marks, and follows its tail. -/
theorem written_of_seal {log : AuditLog P} {actor action subject : PyStr} {metadata : PyDict}
    {timestamp : Option PyStr} {now : PyStr} {prev : Option AuditRecord} {r : AuditRecord}
    (h : log.seal (log.buildRecord actor action subject metadata timestamp now prev) = .ok r) :
    WrittenBy log r ∧ Follows prev [r] := by
  obtain ⟨recordHash, signature, rfl, ⟨data, hdata, hhash⟩, hunsigned, hsigned⟩ := seal_spec h
  refine ⟨⟨rfl, rfl, ⟨data, hdata, hhash⟩, hunsigned, hsigned⟩, ?_⟩
  cases prev <;> exact ⟨rfl, rfl, trivial⟩

theorem written_of_sealMany {log : AuditLog P} : ∀ {es : List BatchEntry} {clock : ℕ → PyStr}
    {prev : Option AuditRecord} {rs : List AuditRecord}, log.sealMany es clock prev = .ok rs →
      (∀ r ∈ rs, WrittenBy log r) ∧ Follows prev rs
  | [], clock, prev, rs, h => by
    obtain rfl : [] = rs := Except.ok.inj h
    exact ⟨by simp, trivial⟩
  | e :: es, clock, prev, rs, h => by
    rw [AuditLog.sealMany] at h
    obtain ⟨r, hseal, h⟩ := bind_eq_ok.mp h
    obtain ⟨rs', hmany, h⟩ := bind_eq_ok.mp h
    obtain rfl := Except.ok.inj h
    obtain ⟨hwritten, hseq, hprev, -⟩ := written_of_seal hseal
    obtain ⟨hrest, hfollows⟩ := written_of_sealMany hmany
    exact ⟨List.forall_mem_cons.mpr ⟨hwritten, hrest⟩, hseq, hprev, hfollows⟩

/-- Records that follow the tail of a chain extend the chain. -/
theorem Follows.chained {xs rs : List AuditRecord} (hxs : ChainedRecords xs)
    (h : Follows xs.getLast? rs) : ChainedRecords (xs ++ rs) := by
  induction rs generalizing xs with
  | nil => rwa [List.append_nil]
  | cons r rs ih =>
    obtain ⟨hseq, hprev, hrest⟩ := h
    have hone : ChainedRecords (xs ++ [r]) := by
      refine chained_append.mpr ⟨hxs, ?_, ?_, trivial⟩
      -- the number of the tail is one less than the length of the chain
      · rw [recordLinks_seq, hseq, Nat.zero_add]
        rcases List.eq_nil_or_concat xs with rfl | ⟨ys, y, rfl⟩
        · rfl
        · have hy := hxs.seq_getElem ys.length (by simp)
          simp only [List.concat_eq_append, List.getLast?_append, List.getLast?_singleton,
            Option.some_or, Option.map_some, Option.getD_some, List.length_append,
            List.length_singleton]
          simp only [List.concat_eq_append, List.getElem_append_right (le_refl ys.length),
            Nat.sub_self, List.getElem_singleton] at hy
          rw [hy]
          push_cast
          ring
      · rw [recordLinks_prev, hprev, endHash_eq_getLast]
        rfl
    have hlast : (xs ++ [r]).getLast? = some r := by simp
    have hnext := ih hone (by rw [hlast]; exact hrest)
    rwa [List.append_assoc, List.singleton_append] at hnext

/-! ### The operations -/

namespace World

variable {B : OrderedBackend}

/-- The stored records. -/
def contents (w : World P B.toStorageBackend) : List AuditRecord := B.contents w.store

/-- An open log remembers the last stored record. -/
def TailOk (w : World P B.toStorageBackend) : Prop :=
  w.log.inited = true → w.log.last = w.contents.getLast?

/-- The world in which `log` is open on the storage `s`. -/
def opened (log : AuditLog P) (s : B.State) : World P B.toStorageBackend :=
  ⟨log.withTail (B.contents s).getLast? true, s⟩

theorem opened_contents (log : AuditLog P) (s : B.State) :
    (opened log s : World P B.toStorageBackend).contents = B.contents s := rfl

theorem opened_tailOk (log : AuditLog P) (s : B.State) :
    (opened log s : World P B.toStorageBackend).TailOk := fun _ => rfl

/-- A storage operation that returns. -/
theorem storage_ok {S : StorageBackend} {α : Type} {x : Operation PyError S.State α}
    {w : World P S} {a : α} (h : (x w.store).1 = .ok a) :
    storage x w = (.ok a, { w with store := (x w.store).2 }) := by
  rw [storage, Operation.zoom_apply, h]

/-- A storage operation that raises. -/
theorem storage_error {S : StorageBackend} {α : Type} {x : Operation PyError S.State α}
    {w : World P S} {e : PyError} (h : (x w.store).1 = .error e) :
    storage x w = (.error e, { w with store := (x w.store).2 }) := by
  rw [storage, Operation.zoom_apply, h]

section

variable {S : StorageBackend} {w : World P S}

/-- An open log is not opened again. -/
theorem ensureInited_of_inited (h : w.log.inited = true) : ensureInited w = (.ok (), w) := by
  rw [ensureInited, Operation.bind_ok (Operation.get_apply w), if_pos h, Operation.pure_apply]

theorem ensureInited_of_not_inited (h : ¬w.log.inited = true) : ensureInited w = init w := by
  rw [ensureInited, Operation.bind_ok (Operation.get_apply w), if_neg h]

/-- A log of its own trusts the tail that it remembers. -/
theorem refreshTail_of_not_shared (h : ¬w.log.shared = true) : refreshTail w = (.ok (), w) := by
  rw [refreshTail, Operation.bind_ok (Operation.get_apply w), if_neg h, Operation.pure_apply]

/-- A shared log takes the tail of the storage. -/
theorem refreshTail_of_shared (h : w.log.shared = true) {last : Option AuditRecord}
    (hlast : (S.loadLast w.store).1 = .ok last) : refreshTail w
      = (.ok (), ⟨w.log.withTail last w.log.inited, (S.loadLast w.store).2⟩) := by
  rw [refreshTail, Operation.bind_ok (Operation.get_apply w), if_pos h,
    Operation.bind_ok (storage_ok hlast), modifyLog, Operation.modify_apply]
  rfl

theorem refreshTail_of_shared_error (h : w.log.shared = true) {e : PyError}
    (hlast : (S.loadLast w.store).1 = .error e) :
    refreshTail w = (.error e, ⟨w.log, (S.loadLast w.store).2⟩) := by
  rw [refreshTail, Operation.bind_ok (Operation.get_apply w), if_pos h,
    Operation.bind_error (storage_error hlast)]

end

theorem init_spec (w : World P B.toStorageBackend) :
    ∃ s, init w = (.ok (), opened w.log s) ∧ B.contents s = w.contents := by
  refine ⟨(B.load (B.init w.store).2).2, ?_, ?_⟩
  · rw [init, Operation.bind_ok (storage_ok (B.init_ok w.store)),
      Operation.bind_ok (storage_ok (B.load_ok _)), modifyLog, Operation.modify_apply]
    simp only [opened, AuditLog.withTail, B.load_contents]
  · rw [B.load_contents, B.init_contents]
    rfl

theorem ensureInited_spec {w : World P B.toStorageBackend} (h : w.TailOk) :
    ∃ s, ensureInited w = (.ok (), opened w.log s) ∧ B.contents s = w.contents := by
  by_cases hinit : w.log.inited = true
  · refine ⟨w.store, ?_, rfl⟩
    -- an open log is the log opened on its own storage
    have hlog : w.log = w.log.withTail (B.contents w.store).getLast? true := by
      have hlast : (B.contents w.store).getLast? = w.log.last := (h hinit).symm
      rw [hlast, ← hinit, withTail_self]
    rw [ensureInited_of_inited hinit, opened, ← hlog]
  · obtain ⟨s, hs, hcont⟩ := init_spec w
    exact ⟨s, (ensureInited_of_not_inited hinit).trans hs, hcont⟩

theorem refreshTail_spec (log : AuditLog P) (s : B.State) :
    ∃ s', refreshTail (opened log s : World P B.toStorageBackend) = (.ok (), opened log s') ∧
      B.contents s' = B.contents s := by
  by_cases hshared : log.shared = true
  · refine ⟨(B.loadLast s).2, ?_, B.loadLast_contents s⟩
    have hsh : (opened log s : World P B.toStorageBackend).log.shared = true := hshared
    rw [refreshTail_of_shared hsh (B.loadLast_ok s), opened, opened, B.loadLast_contents]
    rfl
  · have hsh : ¬(opened log s : World P B.toStorageBackend).log.shared = true := hshared
    exact ⟨s, refreshTail_of_not_shared hsh, rfl⟩

/-- **append**: the record is sealed onto the stored tail and stored, or sealing raises
and nothing is stored. -/
theorem append_cases {w : World P B.toStorageBackend} (h : w.TailOk)
    (actor action subject : PyStr) (metadata : Option PyDict) (timestamp : Option PyStr)
    (now : PyStr) :
    (∃ r s, w.log.seal (w.log.buildRecord actor action subject (metadata.getD []) timestamp now
          w.contents.getLast?) = .ok r ∧
        append actor action subject metadata timestamp now w = (.ok r, opened w.log s) ∧
          B.contents s = w.contents ++ [r]) ∨
      ∃ e s, w.log.seal (w.log.buildRecord actor action subject (metadata.getD []) timestamp now
          w.contents.getLast?) = .error e ∧
        append actor action subject metadata timestamp now w = (.error e, opened w.log s) ∧
          B.contents s = w.contents := by
  obtain ⟨s₁, hs₁, hc₁⟩ := ensureInited_spec h
  obtain ⟨s₂, hs₂, hc₂⟩ := refreshTail_spec w.log s₁
  -- the record is built on the stored tail, whichever way it was found
  rw [hc₁] at hc₂
  have hseal : ((opened w.log s₂ : World P B.toStorageBackend).log.seal
      ((opened w.log s₂ : World P B.toStorageBackend).log.buildRecord actor action subject
        (metadata.getD []) timestamp now (opened w.log s₂ : World P B.toStorageBackend).log.last))
      = w.log.seal (w.log.buildRecord actor action subject (metadata.getD []) timestamp now
          w.contents.getLast?) := by
    rw [← hc₂]
    rfl
  rw [append, Operation.bind_ok hs₁, Operation.bind_ok hs₂,
    Operation.bind_ok (Operation.get_apply _), hseal]
  cases hr : w.log.seal (w.log.buildRecord actor action subject (metadata.getD []) timestamp now
      w.contents.getLast?) with
  | error e =>
    right
    exact ⟨e, s₂, rfl, by rw [Operation.bind_error (Operation.ofExcept_apply _ _)], hc₂⟩
  | ok r =>
    left
    have hcont : B.contents (B.append r s₂).2 = w.contents ++ [r] := by
      rw [B.append_contents, hc₂]
    refine ⟨r, (B.append r s₂).2, rfl, ?_, hcont⟩
    rw [Operation.bind_ok (Operation.ofExcept_apply _ _),
      Operation.bind_ok (storage_ok (B.append_ok r s₂)), modifyLog,
      Operation.bind_ok (Operation.modify_apply _ _), Operation.pure_apply]
    simp only [opened, AuditLog.withTail, hcont, List.getLast?_append, List.getLast?_singleton,
      Option.some_or]

/-- **append_many**: all records are sealed in a row and stored, or sealing one of them
raises and nothing is stored. -/
theorem appendMany_cases {w : World P B.toStorageBackend} (h : w.TailOk)
    (entries : List BatchEntry) (clock : ℕ → PyStr) :
    (∃ rs s, w.log.sealMany entries clock w.contents.getLast? = .ok rs ∧
        appendMany entries clock w = (.ok rs, opened w.log s) ∧
          B.contents s = w.contents ++ rs) ∨
      ∃ e s, appendMany entries clock w = (.error e, opened w.log s) ∧
        B.contents s = w.contents := by
  obtain ⟨s₁, hs₁, hc₁⟩ := ensureInited_spec h
  obtain ⟨s₂, hs₂, hc₂⟩ := refreshTail_spec w.log s₁
  rw [hc₁] at hc₂
  have hseal : (opened w.log s₂ : World P B.toStorageBackend).log.sealMany entries clock
        (opened w.log s₂ : World P B.toStorageBackend).log.last
      = w.log.sealMany entries clock w.contents.getLast? := by
    rw [← hc₂]
    exact withTail_sealMany _ _ _ _ _ _
  rw [appendMany, Operation.bind_ok hs₁, Operation.bind_ok hs₂,
    Operation.bind_ok (Operation.get_apply _), hseal]
  cases hrs : w.log.sealMany entries clock w.contents.getLast? with
  | error e =>
    right
    exact ⟨e, s₂, by rw [Operation.bind_error (Operation.ofExcept_apply _ _)], hc₂⟩
  | ok rs =>
    left
    rw [Operation.bind_ok (Operation.ofExcept_apply _ _)]
    cases rs with
    -- an empty batch is not handed to the storage
    | nil => exact ⟨[], s₂, rfl, rfl, by rw [hc₂, List.append_nil]⟩
    | cons r rs =>
      have hcont : B.contents (B.appendMany (r :: rs) s₂).2 = w.contents ++ r :: rs := by
        rw [B.appendMany_contents, hc₂]
      have hlast : (w.contents ++ r :: rs).getLast? = (r :: rs).getLast? := by
        rw [List.getLast?_append, List.getLast?_cons, Option.some_or]
      refine ⟨r :: rs, (B.appendMany (r :: rs) s₂).2, rfl, ?_, hcont⟩
      rw [if_neg (by simp), Operation.bind_ok (storage_ok (B.appendMany_ok (r :: rs) s₂)),
        modifyLog, Operation.bind_ok (Operation.modify_apply _ _), Operation.pure_apply]
      simp only [opened, AuditLog.withTail, hcont, hlast]

/-- **rotate**: a marker is written under the old key and the new one is taken, or the
key is too short, or the marker is refused. -/
theorem rotate_cases {w : World P B.toStorageBackend} (h : w.TailOk)
    (newSealKey : Bytes) (newKeyId actor now : PyStr) :
    (∃ hlong r s, WrittenBy w.log r ∧ Follows w.contents.getLast? [r] ∧
        rotate newSealKey newKeyId actor now w =
          (.ok r, opened (w.log.withKey newSealKey newKeyId hlong) s) ∧
            B.contents s = w.contents ++ [r]) ∨
      (∃ e s, rotate newSealKey newKeyId actor now w = (.error e, opened w.log s) ∧
        B.contents s = w.contents) ∨
      rotate newSealKey newKeyId actor now w = (.error shortKey, w) := by
  by_cases hlong : MIN_KEY_LENGTH ≤ newSealKey.length
  swap
  · right; right
    rw [rotate, dif_neg hlong, Operation.raise_apply]
  obtain ⟨s₁, hs₁, hc₁⟩ := ensureInited_spec h
  -- the marker is an ordinary record
  have hcases := append_cases (opened_tailOk w.log s₁) actor (lit "key.rotate")
    (lit "key:" ++ newKeyId)
    (some ((opened w.log s₁ : World P B.toStorageBackend).log.rotationMetadata newKeyId)) none now
  rw [opened_contents, hc₁] at hcases
  rw [rotate, dif_pos hlong, Operation.bind_ok hs₁, Operation.bind_ok (Operation.get_apply _)]
  rcases hcases with ⟨r, s, hseal, happend, hcont⟩ | ⟨e, s, -, happend, hcont⟩
  · left
    obtain ⟨hwritten, hfollows⟩ := written_of_seal hseal
    have hwritten' : WrittenBy w.log r :=
      ⟨hwritten.keyId, hwritten.signerId, hwritten.hashed, hwritten.unsigned, hwritten.signed⟩
    refine ⟨hlong, r, s, hwritten', hfollows, ?_, hcont⟩
    rw [Operation.bind_ok happend, modifyLog, Operation.bind_ok (Operation.modify_apply _ _),
      Operation.pure_apply]
    rfl
  · right; left
    exact ⟨e, s, by rw [Operation.bind_error happend]; rfl, hcont⟩

theorem read_spec {w : World P B.toStorageBackend} (h : w.TailOk) :
    ∃ s, read w = (.ok w.contents, opened w.log s) ∧ B.contents s = w.contents := by
  obtain ⟨s, hs, hc⟩ := ensureInited_spec h
  refine ⟨(B.load s).2, ?_, by rw [B.load_contents, hc]⟩
  rw [read, Operation.bind_ok hs, storage_ok (B.load_ok _)]
  simp only [opened, B.load_contents, hc]

/-- **checkpoint** is made for the last stored record and the root over all of them. -/
theorem checkpoint_eq_ok {w : World P B.toStorageBackend} (h : w.TailOk) {c : Checkpoint} :
    (checkpoint w).1 = .ok c ↔ ∃ r root, w.contents.getLast? = some r ∧
      AuditChain.merkleRoot P (w.contents.map AuditRecord.hash) = .ok root ∧
        makeCheckpoint P r w.log.sealKey root (w.log.signingKey.map KeyArg.object) w.log.signerId
          = .ok c := by
  obtain ⟨s, hs, -⟩ := read_spec h
  rw [checkpoint, Operation.bind_ok hs]
  cases hlast : w.contents.getLast? with
  | none =>
    simp only [Operation.raise_apply]
    constructor
    · intro hc
      cases hc
    · rintro ⟨r, root, hr, -⟩
      cases hr
  | some r =>
    simp only [Operation.bind_ok (Operation.get_apply _)]
    cases hroot : AuditChain.merkleRoot P (w.contents.map AuditRecord.hash) with
    | error e =>
      rw [Operation.bind_error (Operation.ofExcept_apply _ _)]
      constructor
      · intro hc
        cases hc
      · rintro ⟨r', root, -, hroot', -⟩
        cases hroot'
    | ok root =>
      rw [Operation.bind_ok (Operation.ofExcept_apply _ _), Operation.ofExcept_apply]
      constructor
      · intro hc
        exact ⟨r, root, rfl, rfl, hc⟩
      · rintro ⟨r', root', hr, hroot', hc⟩
        rw [Option.some.inj hr, Except.ok.inj hroot']
        exact hc

/-- **checkpoint** names the last stored record and the root over all of them. -/
theorem checkpoint_spec {w : World P B.toStorageBackend} (h : w.TailOk) {c : Checkpoint}
    (hc : (checkpoint w).1 = .ok c) : ∃ r root, w.contents.getLast? = some r ∧
      AuditChain.merkleRoot P (w.contents.map AuditRecord.hash) = .ok root ∧
        c.MadeFor r root (w.log.signingKey.map KeyArg.object) := by
  obtain ⟨r, root, hr, hroot, hmade⟩ := (checkpoint_eq_ok h).mp hc
  exact ⟨r, root, hr, hroot, makeCheckpoint_spec hmade⟩

/-- **verify** is `verify_chain` on the stored records, with the keys of the log. -/
theorem verify_spec {w : World P B.toStorageBackend} (h : w.TailOk) (expectedCount : Option ℤ)
    (checkpoint : Option Checkpoint) (signers : Option (StrDict (KeyArg P.PublicKey))) :
    (verify expectedCount checkpoint signers w).1
      = verifyChain w.contents (w.log.keyMaterial signers) expectedCount checkpoint := by
  obtain ⟨s, hs, hc⟩ := read_spec h
  simp only [verify, hs]
  rfl

end World

end AuditChain
