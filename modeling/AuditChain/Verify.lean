/-
AuditChain/Verify.lean

Chain verification.

`verifyChain` is the code: checks against the anchor and the expected count, the
loop over the records, the Merkle root.  Its acceptance is what everything else
rests on, so it is stated once, as a property of the list:

    verifyLoop_ok_iff     the loop passes iff the records are chained from the
                          genesis hash and every single one is in order (RecordOk)
    verifyChain_ok_iff    the report says ok iff the loop passes, the count and
                          the anchor fit, and so does the Merkle root
-/
import AuditChain.Checkpoint
import AuditChain.HashChain
import AuditChain.Merkle
import Mathlib.Data.List.AList

namespace AuditChain

open Python HashChain

/-! ### Dictionaries with string keys -/

/-- A `dict` with string keys. -/
abbrev StrDict (α : Type*) := AList fun _ : PyStr => α

/-- `d.setdefault(key, value)`. -/
def StrDict.setdefault {α : Type*} (d : StrDict α) (key : PyStr) (value : α) : StrDict α :=
  if (d.lookup key).isSome then d else AList.insert key value d

/-- `d or None`. -/
def StrDict.orNone {α : Type*} (d : StrDict α) : Option (StrDict α) :=
  if d.entries = [] then none else some d

/-- `xs[i]`, where a negative index counts from the end. -/
def listGet {α : Type*} (xs : List α) (i : ℤ) : Except PyError α :=
  match xs[(if i < 0 then i + xs.length else i).toNat]? with
  | some x =>
    if i + xs.length < 0 then .error ⟨.indexError, lit "list index out of range"⟩ else .ok x
  | none => .error ⟨.indexError, lit "list index out of range"⟩

theorem listGet_natCast {α : Type*} {xs : List α} {k : ℕ} (h : k < xs.length) :
    listGet xs k = .ok xs[k] := by
  have hk : (if (k : ℤ) < 0 then (k : ℤ) + xs.length else k).toNat = k := by
    rw [if_neg (by omega), Int.toNat_natCast]
  have hnot : ¬(k : ℤ) + xs.length < 0 := by omega
  rw [listGet, hk, List.getElem?_eq_getElem h]
  exact if_neg hnot

/-! ### The code -/

/-- Result of a full-chain verification. -/
structure VerifyReport where
  ok : Bool
  recordsChecked : ℤ
  firstErrorSeq : Option ℤ
  reason : Option PyStr := none
  /-- How many records were checked against an Ed25519 public key. -/
  signedRecords : ℕ := 0
  /-- Merkle root over the records that were checked. -/
  merkleRoot : PyStr := []
  deriving DecidableEq

/-- The key that sealed a record, or none for integrity-only records. -/
def keyFor (r : AuditRecord) (sealKey : Option Bytes) (keyring : Option (StrDict Bytes)) :
    Option Bytes :=
  if r.keyId = [] then sealKey
  else
    match keyring with
    | none => none
    | some keys => keys.lookup r.keyId

variable (P : Runtime)

/-- The keys that a verification is given. -/
structure KeyMaterial where
  sealKey : Option Bytes
  keyring : Option (StrDict Bytes)
  signers : Option (StrDict (KeyArg P.PublicKey))

variable {P}

/-- The key that the material has for a record. -/
def KeyMaterial.keyFor (M : KeyMaterial P) (r : AuditRecord) : Option Bytes :=
  AuditChain.keyFor r M.sealKey M.keyring

/-- A record without a key id is checked under the current key. -/
theorem KeyMaterial.keyFor_of_nil {M : KeyMaterial P} {r : AuditRecord} (h : r.keyId = []) :
    M.keyFor r = M.sealKey := by
  unfold KeyMaterial.keyFor AuditChain.keyFor
  rw [if_pos h]

/-- The signature part of the loop body: a reason to stop, or none. -/
def checkSignature (r : AuditRecord) (signers : StrDict (KeyArg P.PublicKey)) :
    Except PyError (Option PyStr) :=
  if r.signature = [] then .ok (some (lit "missing signature: the record is not signed"))
  else
    match signers.lookup r.signerId with
    | none =>
      .ok (some (lit "unknown signer_id " ++ strRepr P.unicode r.signerId
        ++ lit ": pass the matching public key"))
    | some key => do
      if ← verifyRecordSignature P r key then return none
      else
        return some (lit "signature mismatch: the record was rewritten without the signing key")

/-- The loop body: a reason to stop, or none. -/
def checkRecord (M : KeyMaterial P) (index : ℕ) (prevHash : PyStr) (r : AuditRecord) :
    Except PyError (Option PyStr) :=
  if r.seq ≠ index then
    .ok (some (lit "sequence gap: expected seq " ++ natStr index ++ lit ", found " ++ intStr r.seq))
  else if r.prevHash ≠ prevHash then
    .ok (some (lit "prev_hash mismatch: a record was removed or reordered"))
  else if r.keyId ≠ [] ∧ M.keyFor r = none then
    .ok (some (lit "unknown key_id " ++ strRepr P.unicode r.keyId
      ++ lit ": pass the matching keyring"))
  else do
    let expected ← computeRecordHash P r (M.keyFor r)
    if r.hash ≠ expected then return some (lit "hash mismatch: the record was modified")
    else
      match M.signers with
      | none => return none
      -- only behind the hash: a broken hash is never reported as a signature
      | some signers => checkSignature r signers

/-- The loop: a report that stops it, or the number of signatures checked. -/
def verifyLoop (M : KeyMaterial P) :
    (signed index : ℕ) → (prevHash : PyStr) → List AuditRecord → Except PyError (VerifyReport ⊕ ℕ)
  | signed, _, _, [] => .ok (.inr signed)
  | signed, index, prevHash, r :: rs => do
    match ← checkRecord M index prevHash r with
    | some reason =>
      return .inl {
        ok := false
        recordsChecked := index
        firstErrorSeq := some r.seq
        reason := some reason }
    | none =>
      verifyLoop M (if M.signers.isSome then signed + 1 else signed) (index + 1) r.hash rs

/-- The checks against the anchor in front of the loop: a report that ends the
verification, or none. -/
def checkAnchor (records : List AuditRecord) (c : Checkpoint) :
    Except PyError (Option VerifyReport) :=
  if (records.length : ℤ) ≤ c.seq then
    .ok (some {
      ok := false
      recordsChecked := records.length
      firstErrorSeq := none
      reason := some (lit "chain ends before the checkpoint: tail truncation") })
  else do
    -- a negative `seq` passes the length check and indexes from the end
    let anchor ← listGet records c.seq
    if anchor.hash ≠ c.hash then
      return some {
        ok := false
        recordsChecked := c.seq
        firstErrorSeq := some anchor.seq
        reason := some (lit "checkpoint anchor mismatch: the log changed since the checkpoint") }
    else return none

/-- The check of the expected count. -/
def checkCount (records : List AuditRecord) (expected : ℤ) : Option VerifyReport :=
  if (records.length : ℤ) ≠ expected then
    some {
      ok := false
      recordsChecked := records.length
      firstErrorSeq := none
      reason := some (lit "count mismatch: " ++ natStr records.length
        ++ lit " record(s), expected " ++ intStr expected) }
  else none

/-- The report after the loop. -/
def finishReport (records : List AuditRecord) (checkpoint : Option Checkpoint) (signed : ℕ)
    (root : PyStr) : VerifyReport :=
  if checkpoint.any fun c => c.merkleRoot ≠ [] && c.merkleRoot ≠ root then {
    ok := false
    recordsChecked := records.length
    firstErrorSeq := none
    reason := some (lit "merkle root mismatch: the records do not match the checkpoint")
    signedRecords := signed
    merkleRoot := root }
  else {
    ok := true
    recordsChecked := records.length
    firstErrorSeq := none
    signedRecords := signed
    merkleRoot := root }

/-- The verification behind the check against the anchor: count, loop, Merkle root. -/
def verifyRecords (records : List AuditRecord) (M : KeyMaterial P) (expectedCount : Option ℤ)
    (checkpoint : Option Checkpoint) : Except PyError VerifyReport :=
  match expectedCount.bind (checkCount records) with
  | some report => return report
  | none => do
    match ← verifyLoop M 0 0 GENESIS_HASH records with
    | .inl report => return report
    | .inr signed =>
      let root ← merkleRoot P (records.map AuditRecord.hash)
      return finishReport records checkpoint signed root

/-- Recompute and check every link of the chain. -/
def verifyChain (records : List AuditRecord) (M : KeyMaterial P) (expectedCount : Option ℤ)
    (checkpoint : Option Checkpoint) : Except PyError VerifyReport := do
  match ← checkpoint.mapM (checkAnchor records) with
  | some (some report) => return report
  | _ => verifyRecords records M expectedCount checkpoint

/-! ### What the loop accepts -/

/-- What the chain sees of a record. -/
def recordLinks : Links AuditRecord PyStr :=
  ⟨AuditRecord.seq, AuditRecord.prevHash, AuditRecord.hash⟩

@[simp] theorem recordLinks_seq (r : AuditRecord) : recordLinks.seq r = r.seq := rfl

@[simp] theorem recordLinks_prev (r : AuditRecord) : recordLinks.prev r = r.prevHash := rfl

@[simp] theorem recordLinks_hash (r : AuditRecord) : recordLinks.hash r = r.hash := rfl

/-- The records are numbered from 0 and linked from the genesis hash. -/
def ChainedRecords (rs : List AuditRecord) : Prop := Chained recordLinks 0 GENESIS_HASH rs

theorem ChainedRecords.seq_getElem {rs : List AuditRecord} (h : ChainedRecords rs) (i : ℕ)
    (hi : i < rs.length) : (rs[i]).seq = i := by
  have hseq := Chained.seq_getElem h i hi
  rwa [Nat.zero_add] at hseq

/-- The signature of a record verifies under the key its signer id names. -/
structure SignatureOk (signers : StrDict (KeyArg P.PublicKey)) (r : AuditRecord) : Prop where
  present : r.signature ≠ []
  verifies : ∃ key, signers.lookup r.signerId = some key ∧
    verifyRecordSignature P r key = .ok true

/-- A record is in order by itself: its key is known, its hash is the one computed
under that key, and it is signed if signatures are asked for. -/
structure RecordOk (M : KeyMaterial P) (r : AuditRecord) : Prop where
  keyKnown : r.keyId ≠ [] → M.keyFor r ≠ none
  hash : computeRecordHash P r (M.keyFor r) = .ok r.hash
  signature : ∀ signers, M.signers = some signers → SignatureOk signers r

theorem checkSignature_eq_none {signers : StrDict (KeyArg P.PublicKey)} {r : AuditRecord} :
    checkSignature r signers = .ok none ↔ SignatureOk signers r := by
  unfold checkSignature
  by_cases hsig : r.signature = []
  · rw [if_pos hsig]
    constructor
    · intro h
      cases h
    · intro h
      exact absurd hsig h.present
  rw [if_neg hsig]
  constructor
  · intro h
    cases hkey : signers.lookup r.signerId with
    | none =>
      rw [hkey] at h
      cases h
    | some key =>
      rw [hkey] at h
      obtain ⟨v, hver, h⟩ := bind_eq_ok.mp h
      cases v with
      | false => cases h
      | true => exact ⟨hsig, key, hkey, hver⟩
  · rintro ⟨-, key, hkey, hver⟩
    rw [hkey]
    exact bind_eq_ok.mpr ⟨true, hver, rfl⟩

/-- The loop body passes a record that fits in and is in order. -/
theorem checkRecord_eq_none {M : KeyMaterial P} {index : ℕ} {prevHash : PyStr} {r : AuditRecord} :
    checkRecord M index prevHash r = .ok none ↔
      r.seq = index ∧ r.prevHash = prevHash ∧ RecordOk M r := by
  unfold checkRecord
  by_cases hseq : r.seq = index
  swap
  · simp [hseq]
  by_cases hprev : r.prevHash = prevHash
  swap
  · simp [hseq, hprev]
  by_cases hkey : r.keyId ≠ [] ∧ M.keyFor r = none
  · rw [if_neg (not_not.mpr hseq), if_neg (not_not.mpr hprev), if_pos hkey]
    constructor
    · intro h; cases h
    · rintro ⟨-, -, hok⟩
      exact absurd hkey.2 (hok.keyKnown hkey.1)
  rw [if_neg (not_not.mpr hseq), if_neg (not_not.mpr hprev), if_neg hkey]
  simp only [hseq, hprev, true_and]
  constructor
  · intro h
    obtain ⟨expected, hexpected, h⟩ := bind_eq_ok.mp h
    by_cases heq : r.hash = expected
    swap
    · rw [if_pos heq] at h
      cases h
    rw [if_neg (not_not.mpr heq)] at h
    refine ⟨fun hid hnone => hkey ⟨hid, hnone⟩, by rw [hexpected, heq], fun signers hsigners => ?_⟩
    rw [hsigners] at h
    exact checkSignature_eq_none.mp h
  · intro hok
    refine bind_eq_ok.mpr ⟨r.hash, hok.hash, ?_⟩
    rw [if_neg (not_not.mpr rfl)]
    cases hsigners : M.signers with
    | none => rfl
    | some signers => exact checkSignature_eq_none.mpr (hok.signature signers hsigners)

/-- The number of signatures that the loop counts. -/
def countSigned (M : KeyMaterial P) (records : List AuditRecord) : ℕ :=
  if M.signers.isSome then records.length else 0

/-- **What the loop accepts.** -/
theorem verifyLoop_ok_iff {M : KeyMaterial P} : ∀ (rs : List AuditRecord) (signed index : ℕ)
    (prevHash : PyStr) (total : ℕ), verifyLoop M signed index prevHash rs = .ok (.inr total) ↔
      Chained recordLinks index prevHash rs ∧ (∀ r ∈ rs, RecordOk M r) ∧
        total = signed + countSigned M rs
  | [], signed, index, prevHash, total => by
    have hcount : signed + countSigned M [] = signed := by
      unfold countSigned
      split <;> rfl
    rw [verifyLoop, hcount, Except.ok.injEq, Sum.inr.injEq]
    exact ⟨fun h => ⟨trivial, by simp, h.symm⟩, fun h => h.2.2.symm⟩
  | r :: rs, signed, index, prevHash, total => by
    -- one record more is one signature more, if signatures are asked for
    have hcount : (if M.signers.isSome then signed + 1 else signed) + countSigned M rs
        = signed + countSigned M (r :: rs) := by
      unfold countSigned
      split
      · rw [List.length_cons]; omega
      · rfl
    rw [verifyLoop, bind_eq_ok]
    constructor
    · rintro ⟨reason, hcheck, h⟩
      cases reason with
      | some reason => cases h
      | none =>
        obtain ⟨hseq, hprev, hok⟩ := checkRecord_eq_none.mp hcheck
        obtain ⟨hchain, hrs, htotal⟩ := (verifyLoop_ok_iff rs _ _ _ _).mp h
        exact ⟨⟨hseq, hprev, hchain⟩, List.forall_mem_cons.mpr ⟨hok, hrs⟩, by rw [htotal, hcount]⟩
    · rintro ⟨⟨hseq, hprev, hchain⟩, hrs, htotal⟩
      obtain ⟨hok, hrs⟩ := List.forall_mem_cons.mp hrs
      refine ⟨none, checkRecord_eq_none.mpr ⟨hseq, hprev, hok⟩, ?_⟩
      exact (verifyLoop_ok_iff rs _ _ _ _).mpr ⟨hchain, hrs, by rw [htotal, hcount]⟩

/-- A report that stops the loop never says ok. -/
theorem verifyLoop_inl {M : KeyMaterial P} : ∀ (rs : List AuditRecord) (signed index : ℕ)
    (prevHash : PyStr) {report : VerifyReport},
      verifyLoop M signed index prevHash rs = .ok (.inl report) → report.ok = false
  | [], _, _, _, _, h => by cases h
  | r :: rs, signed, index, prevHash, report, h => by
    rw [verifyLoop] at h
    obtain ⟨reason, -, h⟩ := bind_eq_ok.mp h
    cases reason with
    | some reason =>
      obtain rfl := Sum.inl.inj (Except.ok.inj h)
      rfl
    | none => exact verifyLoop_inl rs _ _ _ h

/-! ### What the whole verification accepts -/

/-- The records pass the loop. -/
structure Accepted (M : KeyMaterial P) (records : List AuditRecord) : Prop where
  chained : ChainedRecords records
  records : ∀ r ∈ records, RecordOk M r

/-- The log reaches the anchor, and has its hash there. -/
def Anchored (records : List AuditRecord) (c : Checkpoint) : Prop :=
  c.seq < records.length ∧ ∃ r, listGet records c.seq = .ok r ∧ r.hash = c.hash

theorem checkAnchor_eq_none {records : List AuditRecord} {c : Checkpoint} :
    checkAnchor records c = .ok none ↔ Anchored records c := by
  unfold checkAnchor Anchored
  by_cases hlen : (records.length : ℤ) ≤ c.seq
  · rw [if_pos hlen]
    constructor
    · intro h; cases h
    · intro h; exact absurd h.1 (not_lt.mpr hlen)
  · rw [if_neg hlen]
    constructor
    · intro h
      obtain ⟨r, hget, h⟩ := bind_eq_ok.mp h
      by_cases hhash : r.hash = c.hash
      · exact ⟨not_le.mp hlen, r, hget, hhash⟩
      · rw [if_pos hhash] at h
        cases h
    · rintro ⟨-, r, hget, hhash⟩
      refine bind_eq_ok.mpr ⟨r, hget, ?_⟩
      rw [if_neg (not_not.mpr hhash)]
      rfl

theorem checkAnchor_some {records : List AuditRecord} {c : Checkpoint} {report : VerifyReport}
    (h : checkAnchor records c = .ok (some report)) : report.ok = false := by
  unfold checkAnchor at h
  split at h
  · obtain rfl := Option.some.inj (Except.ok.inj h)
    rfl
  · obtain ⟨r, -, h⟩ := bind_eq_ok.mp h
    split at h
    · obtain rfl := Option.some.inj (Except.ok.inj h)
      rfl
    · cases h

theorem checkCount_some {records : List AuditRecord} {n : ℤ} {report : VerifyReport}
    (h : checkCount records n = some report) : report.ok = false := by
  unfold checkCount at h
  split at h
  · rw [← Option.some.inj h]
  · cases h

theorem checkCount_eq_none {records : List AuditRecord} {n : ℤ} :
    checkCount records n = none ↔ (records.length : ℤ) = n := by
  unfold checkCount
  split
  · rename_i hne
    simpa using hne
  · rename_i heq
    simpa using heq

theorem finishReport_ok {records : List AuditRecord} {checkpoint : Option Checkpoint}
    {signed : ℕ} {root : PyStr} :
    (finishReport records checkpoint signed root).ok = true ↔
      ∀ c, checkpoint = some c → c.merkleRoot = [] ∨ c.merkleRoot = root := by
  unfold finishReport
  cases checkpoint with
  | none => simp
  | some c =>
    by_cases hnil : c.merkleRoot = [] <;> by_cases hroot : c.merkleRoot = root <;>
      simp [hnil, hroot]

/-- The report of a verification that succeeds. -/
def okReport (M : KeyMaterial P) (records : List AuditRecord) (root : PyStr) : VerifyReport where
  ok := true
  recordsChecked := records.length
  firstErrorSeq := none
  signedRecords := countSigned M records
  merkleRoot := root

theorem finishReport_eq {M : KeyMaterial P} {records : List AuditRecord}
    {checkpoint : Option Checkpoint} {root : PyStr}
    (h : ∀ c, checkpoint = some c → c.merkleRoot = [] ∨ c.merkleRoot = root) :
    finishReport records checkpoint (countSigned M records) root = okReport M records root := by
  have hok : (finishReport records checkpoint (countSigned M records) root).ok = true :=
    finishReport_ok.mpr h
  unfold finishReport at hok ⊢
  split at hok
  · cases hok
  · rename_i hno
    rw [if_neg hno]
    rfl

/-- A hash that was computed is hexadecimal. -/
theorem RecordOk.exists_digest {M : KeyMaterial P} {r : AuditRecord} (h : RecordOk M r) :
    ∃ data, hashInput P r = .ok data ∧ r.hash = (P.seal (M.keyFor r) data).hex :=
  computeRecordHash_eq_ok.mp h.hash

/-- The three ways the anchor check can go. -/
theorem anchor_cases (records : List AuditRecord) (checkpoint : Option Checkpoint) :
    (¬(∀ c, checkpoint = some c → Anchored records c) ∧
      ((∃ e, checkpoint.mapM (checkAnchor records) = .error e) ∨
        ∃ report, checkpoint.mapM (checkAnchor records) = .ok (some (some report)) ∧
          report.ok = false)) ∨
    ((∀ c, checkpoint = some c → Anchored records c) ∧
      (checkpoint.mapM (checkAnchor records) = .ok none ∨
        checkpoint.mapM (checkAnchor records) = .ok (some none))) := by
  cases checkpoint with
  | none => exact Or.inr ⟨by simp, Or.inl rfl⟩
  | some c =>
    have hall : (∀ c', some c = some c' → Anchored records c') ↔ Anchored records c :=
      ⟨fun h => h c rfl, fun h c' hc' => Option.some.inj hc' ▸ h⟩
    rw [hall, ← checkAnchor_eq_none]
    simp only [Option.mapM_some]
    cases hcheck : checkAnchor records c with
    | error e => exact Or.inl ⟨by simp, Or.inl ⟨e, rfl⟩⟩
    | ok reason =>
      cases reason with
      | none => exact Or.inr ⟨rfl, Or.inr rfl⟩
      | some report =>
        exact Or.inl ⟨by simp, Or.inr ⟨report, rfl, checkAnchor_some hcheck⟩⟩

theorem verifyRecords_ok_iff {records : List AuditRecord} {M : KeyMaterial P}
    {expectedCount : Option ℤ} {checkpoint : Option Checkpoint} {report : VerifyReport} :
    verifyRecords records M expectedCount checkpoint = .ok report ∧ report.ok = true ↔
      Accepted M records ∧ (∀ n, expectedCount = some n → (records.length : ℤ) = n) ∧
        ∃ root, merkleRoot P (records.map AuditRecord.hash) = .ok root ∧
          (∀ c, checkpoint = some c → c.merkleRoot = [] ∨ c.merkleRoot = root) ∧
            report = okReport M records root := by
  unfold verifyRecords
  cases hcount : expectedCount.bind (checkCount records) with
  | some rep =>
    -- the count does not fit, so the report cannot say ok
    obtain ⟨n, hn, hrep⟩ := Option.bind_eq_some_iff.mp hcount
    constructor
    · rintro ⟨h, hok⟩
      rw [← Except.ok.inj h, checkCount_some hrep] at hok
      cases hok
    · rintro ⟨-, hall, -⟩
      rw [checkCount_eq_none.mpr (hall n hn)] at hrep
      cases hrep
  | none =>
    have hall : ∀ n, expectedCount = some n → (records.length : ℤ) = n := by
      rintro n rfl
      exact checkCount_eq_none.mp hcount
    constructor
    · rintro ⟨h, hok⟩
      obtain ⟨out, hloop, h⟩ := bind_eq_ok.mp h
      cases out with
      | inl rep =>
        obtain rfl := Except.ok.inj h
        -- the loop was left early
        rw [verifyLoop_inl records 0 0 GENESIS_HASH hloop] at hok
        cases hok
      | inr signed =>
        obtain ⟨root, hroot, h⟩ := bind_eq_ok.mp h
        obtain rfl := Except.ok.inj h
        obtain ⟨hchain, hrs, hsigned⟩ := (verifyLoop_ok_iff records 0 0 GENESIS_HASH _).mp hloop
        have hcp := finishReport_ok.mp hok
        rw [Nat.zero_add] at hsigned
        exact ⟨⟨hchain, hrs⟩, hall, root, hroot, hcp, by rw [hsigned, finishReport_eq hcp]⟩
    · rintro ⟨⟨hchain, hrs⟩, -, root, hroot, hcp, rfl⟩
      refine ⟨bind_eq_ok.mpr ⟨.inr (countSigned M records), ?_, ?_⟩, rfl⟩
      · exact (verifyLoop_ok_iff records 0 0 GENESIS_HASH _).mpr
          ⟨hchain, hrs, (Nat.zero_add _).symm⟩
      · exact bind_eq_ok.mpr ⟨root, hroot, congrArg Except.ok (finishReport_eq hcp)⟩

/-- **What the verification accepts**: records that pass the loop, in the expected
number, with the anchor and its Merkle root. -/
theorem verifyChain_ok_iff {records : List AuditRecord} {M : KeyMaterial P}
    {expectedCount : Option ℤ} {checkpoint : Option Checkpoint} {report : VerifyReport} :
    verifyChain records M expectedCount checkpoint = .ok report ∧ report.ok = true ↔
      Accepted M records ∧ (∀ n, expectedCount = some n → (records.length : ℤ) = n) ∧
        (∀ c, checkpoint = some c → Anchored records c) ∧
          ∃ root, merkleRoot P (records.map AuditRecord.hash) = .ok root ∧
            (∀ c, checkpoint = some c → c.merkleRoot = [] ∨ c.merkleRoot = root) ∧
              report = okReport M records root := by
  rcases anchor_cases records checkpoint with ⟨hno, hfail⟩ | ⟨hyes, hpass⟩
  -- a failed anchor check ends the verification, with a report or with an exception
  · have hleft : ¬(verifyChain records M expectedCount checkpoint = .ok report ∧
        report.ok = true) := by
      rintro ⟨h, hok⟩
      unfold verifyChain at h
      rcases hfail with ⟨e, he⟩ | ⟨rep, hrep, hrepok⟩
      · rw [he] at h
        cases h
      · rw [hrep] at h
        obtain rfl := Except.ok.inj h
        rw [hrepok] at hok
        cases hok
    exact ⟨fun h => absurd h hleft, fun h => absurd h.2.2.1 hno⟩
  -- without an anchor, or with one that fits, the rest decides
  · have hrest : verifyChain records M expectedCount checkpoint
        = verifyRecords records M expectedCount checkpoint := by
      unfold verifyChain
      rcases hpass with h | h <;> rw [h] <;> rfl
    rw [hrest, verifyRecords_ok_iff]
    constructor
    · rintro ⟨hacc, hcount, hroot⟩
      exact ⟨hacc, hcount, hyes, hroot⟩
    · rintro ⟨hacc, hcount, -, hroot⟩
      exact ⟨hacc, hcount, hroot⟩

end AuditChain
