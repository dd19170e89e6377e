/-
AuditChain/Verdicts.lean

What the verdict of `verify_chain` says, and when there is one.

The loop runs over the longest part of the list that is in order and stops at
the record behind it.  What it does there depends on that record and on what is
in front of it, not on the rest (`verifyRecords_stop`).  So

    verifyChain_pointsAt     the report points at the first record out of order
    exists_verifyChain_iff   there is a report unless the record it stops at cannot
                             be hashed, or its signature cannot be looked at

The second is not what the code intends: a record like that comes out of a file
(`exists_verifyChain_counterexample`), and the exception leaves `AuditLog.verify`.
-/
import AuditChain.Appending
import AuditChain.Stored

namespace AuditChain

open Python HashChain

variable {P : Runtime} {M : KeyMaterial P}

/-! ### Where the loop stops -/

/-- The loop passes records that are in order, and goes on behind them. -/
theorem verifyLoop_append : ∀ (xs ys : List AuditRecord) (signed index : ℕ) (prevHash : PyStr),
    Chained recordLinks index prevHash xs → (∀ r ∈ xs, RecordOk M r) →
      ∃ total, verifyLoop M signed index prevHash (xs ++ ys)
        = verifyLoop M total (index + xs.length) (endHash recordLinks prevHash xs) ys
  | [], ys, signed, index, prevHash, _, _ => ⟨signed, rfl⟩
  | x :: xs, ys, signed, index, prevHash, hchain, hok => by
    obtain ⟨hseq, hprev, hchain⟩ := hchain
    obtain ⟨hx, hxs⟩ := List.forall_mem_cons.mp hok
    have hlen : index + 1 + xs.length = index + (x :: xs).length := by
      rw [List.length_cons]
      omega
    obtain ⟨total, htotal⟩ := verifyLoop_append xs ys
      (if M.signers.isSome then signed + 1 else signed) _ _ hchain hxs
    refine ⟨total, ?_⟩
    rw [List.cons_append, verifyLoop, checkRecord_eq_none.mpr ⟨hseq, hprev, hx⟩, ok_bind, ← hlen]
    exact htotal

/-- Either all records are in order, or there is a first one that is not. -/
theorem exists_first_stop (M : KeyMaterial P) : ∀ (rs : List AuditRecord) (index : ℕ)
    (prevHash : PyStr), (Chained recordLinks index prevHash rs ∧ ∀ r ∈ rs, RecordOk M r) ∨
      ∃ xs r ys, rs = xs ++ r :: ys ∧ Chained recordLinks index prevHash xs ∧
        (∀ x ∈ xs, RecordOk M x) ∧
          checkRecord M (index + xs.length) (endHash recordLinks prevHash xs) r ≠ .ok none
  | [], _, _ => Or.inl ⟨trivial, by simp⟩
  | r :: rs, index, prevHash => by
    by_cases hcheck : checkRecord M index prevHash r = .ok none
    swap
    · exact Or.inr ⟨[], r, rs, rfl, trivial, by simp, hcheck⟩
    obtain ⟨hseq, hprev, hr⟩ := checkRecord_eq_none.mp hcheck
    rcases exists_first_stop M rs (index + 1) r.hash with ⟨hchain, hok⟩ | hstop
    · exact Or.inl ⟨⟨hseq, hprev, hchain⟩, List.forall_mem_cons.mpr ⟨hr, hok⟩⟩
    · obtain ⟨xs, r', ys, rfl, hchain, hok, hne⟩ := hstop
      have hlen : index + 1 + xs.length = index + (r :: xs).length := by
        rw [List.length_cons]
        omega
      refine Or.inr ⟨r :: xs, r', ys, rfl, ⟨hseq, hprev, hchain⟩,
        List.forall_mem_cons.mpr ⟨hr, hok⟩, ?_⟩
      rwa [endHash_cons, ← hlen]

/-- The hash that has to stand in front of the record behind these. -/
def hashBehind (xs : List AuditRecord) : PyStr := endHash recordLinks GENESIS_HASH xs

variable (M) in
/-- The loop arrives at `r` behind `xs`, and does not pass it. -/
structure StopsAt (xs : List AuditRecord) (r : AuditRecord) : Prop where
  accepted : Accepted M xs
  stops : checkRecord M xs.length (hashBehind xs) r ≠ .ok none

/-- Records that do not pass the loop have a first one that it stops at. -/
theorem exists_stopsAt {records : List AuditRecord} (h : ¬Accepted M records) :
    ∃ xs r ys, records = xs ++ r :: ys ∧ StopsAt M xs r := by
  rcases exists_first_stop M records 0 GENESIS_HASH with hall | hstop
  · exact absurd ⟨hall.1, hall.2⟩ h
  · obtain ⟨xs, r, ys, heq, hchain, hok, hne⟩ := hstop
    rw [Nat.zero_add] at hne
    exact ⟨xs, r, ys, heq, ⟨hchain, hok⟩, hne⟩

/-- The report of a loop that stops. -/
def stopReport (index : ℕ) (r : AuditRecord) (reason : PyStr) : VerifyReport where
  ok := false
  recordsChecked := index
  firstErrorSeq := some r.seq
  reason := some reason

/-- **What happens at the record that the loop stops at** does not depend on what is
behind it. -/
theorem verifyRecords_stop {xs : List AuditRecord} {r : AuditRecord} (h : StopsAt M xs r)
    (ys : List AuditRecord) (checkpoint : Option Checkpoint) :
    (∃ reason, checkRecord M xs.length (hashBehind xs) r = .ok (some reason) ∧
      verifyRecords (xs ++ r :: ys) M none checkpoint
        = .ok (stopReport xs.length r reason)) ∨
    ∃ e, checkRecord M xs.length (hashBehind xs) r = .error e ∧
      verifyRecords (xs ++ r :: ys) M none checkpoint = .error e := by
  obtain ⟨total, hloop⟩ :=
    verifyLoop_append xs (r :: ys) 0 0 GENESIS_HASH h.accepted.chained h.accepted.records
  rw [Nat.zero_add, verifyLoop] at hloop
  rw [← hashBehind] at hloop
  cases hcheck : checkRecord M xs.length (hashBehind xs) r with
  | error e =>
    rw [hcheck, error_bind] at hloop
    refine Or.inr ⟨e, rfl, ?_⟩
    simp only [verifyRecords, Option.bind_none, hloop, error_bind]
  | ok reason =>
    cases reason with
    | none => exact absurd hcheck h.stops
    | some reason =>
      rw [hcheck, ok_bind] at hloop
      refine Or.inl ⟨reason, rfl, ?_⟩
      simp only [verifyRecords, Option.bind_none, hloop]
      rfl

/-! ### Where the report points -/

variable (M) in
/-- The list is accepted: the report says ok. -/
def Accepts (records : List AuditRecord) : Prop :=
  ∃ report, verifyChain records M none none = .ok report ∧ report.ok = true

theorem accepts_iff {records : List AuditRecord} : Accepts M records ↔ Accepted M records :=
  verifyChain_plain_iff

/-- Less of an accepted list is accepted. -/
theorem Accepted.left {xs ys : List AuditRecord} (h : Accepted M (xs ++ ys)) : Accepted M xs :=
  ⟨(chained_append.mp h.chained).1, fun r hr => h.records r (List.mem_append_left ys hr)⟩

theorem Accepted.take {records : List AuditRecord} (h : Accepted M records) (k : ℕ) :
    Accepted M (records.take k) := by
  rw [← List.take_append_drop k records] at h
  exact h.left

/-- Without a checkpoint only the records count. -/
theorem verifyChain_none (records : List AuditRecord) (M : KeyMaterial P) (n : Option ℤ) :
    verifyChain records M n none = verifyRecords records M n none := rfl

variable (M) in
/-- A list is refused at position `n`, with this record and this reason. -/
def RefusedAt (records : List AuditRecord) (n : ℕ) (seq : Option ℤ) (reason : Option PyStr) :
    Prop :=
  ∃ report, verifyChain records M none none = .ok report ∧ report.ok = false ∧
    report.recordsChecked = n ∧ report.firstErrorSeq = seq ∧ report.reason = reason

variable (M) in
/-- A report that has checked `n` records points at the first one that is out of order. -/
structure PointsAt (records : List AuditRecord) (report : VerifyReport) (n : ℕ) : Prop where
  checked : report.recordsChecked = n
  before : ∀ k ≤ n, Accepts M (records.take k)
  complete : report.ok = true → n = records.length
  broken : report.ok = false →
    ∃ hn : n < records.length, report.firstErrorSeq = some records[n].seq
  behind : report.ok = false → ∀ k, n < k →
    RefusedAt M (records.take k) n report.firstErrorSeq report.reason
  appended : report.ok = false → ∀ more,
    RefusedAt M (records ++ more) n report.firstErrorSeq report.reason

theorem pointsAt_of_stop {xs ys : List AuditRecord} {r : AuditRecord} {report : VerifyReport}
    (h : StopsAt M xs r) (hreport : verifyChain (xs ++ r :: ys) M none none = .ok report) :
    PointsAt M (xs ++ r :: ys) report xs.length := by
  -- the same reason for every list that goes on behind the record
  obtain ⟨reason, hall, rfl⟩ : ∃ reason, (∀ zs, verifyChain (xs ++ r :: zs) M none none
      = .ok (stopReport xs.length r reason)) ∧ report = stopReport xs.length r reason := by
    rcases verifyRecords_stop h ys none with ⟨reason, hcheck, hstop⟩ | ⟨e, -, hraise⟩
    · refine ⟨reason, fun zs => ?_, ?_⟩
      · rcases verifyRecords_stop h zs none with ⟨reason', hcheck', hstop'⟩ | ⟨e, hcheck', -⟩
        · rw [hcheck] at hcheck'
          obtain rfl := Option.some.inj (Except.ok.inj hcheck')
          exact hstop'
        · rw [hcheck] at hcheck'
          cases hcheck'
      · rw [verifyChain_none, hstop] at hreport
        exact (Except.ok.inj hreport).symm
    · rw [verifyChain_none, hraise] at hreport
      cases hreport
  have hrefused : ∀ zs, RefusedAt M (xs ++ r :: zs) xs.length (some r.seq) (some reason) :=
    fun zs => ⟨_, hall zs, rfl, rfl, rfl, rfl⟩
  refine ⟨rfl, fun k hk => ?_, ?_, fun _ => ⟨by simp, by simp [stopReport]⟩, fun _ k hk => ?_,
    fun _ more => ?_⟩
  · rw [List.take_append_of_le_length hk, accepts_iff]
    exact h.accepted.take k
  · intro hok
    cases hok
  · obtain ⟨m, rfl⟩ : ∃ m, k = xs.length + (m + 1) := ⟨k - xs.length - 1, by omega⟩
    rw [List.take_length_add_append, List.take_succ_cons]
    exact hrefused _
  · rw [List.append_assoc, List.cons_append]
    exact hrefused _

theorem pointsAt_of_accepted {records : List AuditRecord} {report : VerifyReport}
    (h : Accepted M records) (hreport : verifyChain records M none none = .ok report) :
    PointsAt M records report records.length := by
  obtain ⟨report', hreport', hok⟩ := accepts_iff.mpr h
  rw [hreport] at hreport'
  obtain rfl := Except.ok.inj hreport'
  obtain ⟨-, -, -, root, -, -, rfl⟩ := verifyChain_ok_iff.mp ⟨hreport, hok⟩
  have hno : ∀ {p : Prop}, (okReport M records root).ok = false → p := fun h => by cases h
  exact ⟨rfl, fun k _ => accepts_iff.mpr (h.take k), fun _ => rfl, hno, hno, hno⟩

/-- Every report points at the first record out of order. -/
theorem exists_pointsAt {records : List AuditRecord} {report : VerifyReport}
    (hreport : verifyChain records M none none = .ok report) :
    ∃ n, PointsAt M records report n := by
  by_cases hacc : Accepted M records
  · exact ⟨_, pointsAt_of_accepted hacc hreport⟩
  · obtain ⟨xs, r, ys, rfl, hstop⟩ := exists_stopsAt hacc
    exact ⟨_, pointsAt_of_stop hstop hreport⟩

/-! ### When there is a report -/

/-- The signature of a record can be looked at. -/
theorem exists_verifyRecordSignature_iff {r : AuditRecord} {key : KeyArg P.PublicKey} :
    (∃ v, verifyRecordSignature P r key = .ok v) ↔
      Encodable (recordSigningText r.seq r.hash r.signerId) ∧ ∃ k, loadPublicKey P key = .ok k := by
  rw [← utf8Encode_ok_iff]
  constructor
  · rintro ⟨v, hv⟩
    obtain ⟨message, hmessage, hv⟩ := bind_eq_ok.mp hv
    obtain ⟨k, hk, -⟩ := bind_eq_ok.mp hv
    exact ⟨⟨message, hmessage⟩, k, hk⟩
  · rintro ⟨⟨message, hmessage⟩, k, hk⟩
    have hmessage' : recordSigningMessage r = .ok message := hmessage
    rw [verifyRecordSignature, hmessage', ok_bind, verifySignature, hk, ok_bind]
    split <;> exact ⟨_, rfl⟩

variable (M) in
/-- The verification can work on a record: it can be hashed and, if its hash is right,
its signature can be looked at under the key that its signer id names. -/
structure Checkable (r : AuditRecord) : Prop where
  serializable : (PyVal.dict r.metadata).serializable = true
  encodable : r.EncodablePayload
  signature : ∀ signers key, M.signers = some signers →
    computeRecordHash P r (M.keyFor r) = .ok r.hash → r.signature ≠ [] →
      signers.lookup r.signerId = some key →
        Encodable r.signerId ∧ ∃ k, loadPublicKey P key = .ok k

/-- The signature part of the loop body comes to an end. -/
theorem exists_checkSignature_iff {signers : StrDict (KeyArg P.PublicKey)} {r : AuditRecord} :
    (∃ reason, checkSignature r signers = .ok reason) ↔
      (r.signature ≠ [] → ∀ key, signers.lookup r.signerId = some key →
        ∃ v, verifyRecordSignature P r key = .ok v) := by
  unfold checkSignature
  by_cases hsig : r.signature = []
  · rw [if_pos hsig]
    exact iff_of_true ⟨_, rfl⟩ fun h => absurd hsig h
  rw [if_neg hsig]
  cases hkey : signers.lookup r.signerId with
  | none => exact iff_of_true ⟨_, rfl⟩ fun _ key h => by cases h
  | some key =>
    constructor
    · rintro ⟨reason, h⟩ - key' hkey'
      obtain rfl := Option.some.inj hkey'
      obtain ⟨v, hv, -⟩ := bind_eq_ok.mp h
      exact ⟨v, hv⟩
    · intro h
      obtain ⟨v, hv⟩ := h hsig key rfl
      simp only [hv, ok_bind]
      cases v <;> exact ⟨_, rfl⟩

/-- **The loop body comes to an end** on every record that it does not have to hash, and
on those it can work on. -/
theorem exists_checkRecord_iff {index : ℕ} {prevHash : PyStr} {r : AuditRecord}
    (hprevHash : IsAscii prevHash) : (∃ reason, checkRecord M index prevHash r = .ok reason) ↔
      (r.seq = index → r.prevHash = prevHash → (r.keyId ≠ [] → M.keyFor r ≠ none) →
        Checkable M r) := by
  unfold checkRecord
  by_cases hseq : r.seq = index
  swap
  · rw [if_pos hseq]
    exact iff_of_true ⟨_, rfl⟩ fun h => absurd h hseq
  by_cases hprev : r.prevHash = prevHash
  swap
  · rw [if_neg (not_not.mpr hseq), if_pos hprev]
    exact iff_of_true ⟨_, rfl⟩ fun _ h => absurd h hprev
  by_cases hkey : r.keyId ≠ [] ∧ M.keyFor r = none
  · rw [if_neg (not_not.mpr hseq), if_neg (not_not.mpr hprev), if_pos hkey]
    exact iff_of_true ⟨_, rfl⟩ fun _ _ h => absurd hkey.2 (h hkey.1)
  rw [if_neg (not_not.mpr hseq), if_neg (not_not.mpr hprev), if_neg hkey]
  have hhash : (∃ h, computeRecordHash P r (M.keyFor r) = .ok h) ↔
      (PyVal.dict r.metadata).serializable = true ∧ r.EncodablePayload := by
    have hascii : IsAscii r.prevHash := hprev ▸ hprevHash
    simp only [computeRecordHash_eq_ok]
    constructor
    · rintro ⟨_, data, hdata, -⟩
      exact (exists_hashInput_iff.mp ⟨data, hdata⟩).2
    · intro h
      obtain ⟨data, hdata⟩ := exists_hashInput_iff (P := P).mpr ⟨hascii, h⟩
      exact ⟨_, data, hdata, rfl⟩
  constructor
  · rintro ⟨reason, h⟩ - - -
    obtain ⟨expected, hexpected, h⟩ := bind_eq_ok.mp h
    obtain ⟨hser, henc⟩ := hhash.mp ⟨expected, hexpected⟩
    refine ⟨hser, henc, fun signers key hsigners hok hsig hlookup => ?_⟩
    rw [hexpected] at hok
    obtain rfl := Except.ok.inj hok
    rw [if_neg (not_not.mpr rfl), hsigners] at h
    obtain ⟨hmessage, hload⟩ := exists_verifyRecordSignature_iff.mp
      (exists_checkSignature_iff.mp ⟨reason, h⟩ hsig key hlookup)
    obtain ⟨data, -, heq⟩ := computeRecordHash_eq_ok.mp hexpected
    rw [heq] at hmessage
    exact ⟨((encodable_recordSigningText _ _ _).mp hmessage).2, hload⟩
  · intro h
    have hcheckable := h hseq hprev fun hid hnone => hkey ⟨hid, hnone⟩
    obtain ⟨expected, hexpected⟩ := hhash.mpr ⟨hcheckable.serializable, hcheckable.encodable⟩
    rw [hexpected, ok_bind]
    by_cases hok : r.hash = expected
    swap
    · rw [if_pos hok]
      exact ⟨_, rfl⟩
    rw [if_neg (not_not.mpr hok)]
    cases hsigners : M.signers with
    | none => exact ⟨none, rfl⟩
    | some signers =>
      -- the hash is right, so the text that was signed has a hash in it
      apply exists_checkSignature_iff.mpr
      intro hsig key hlookup
      obtain ⟨hid, hload⟩ :=
        hcheckable.signature signers key hsigners (hok ▸ hexpected) hsig hlookup
      obtain ⟨data, -, heq⟩ := computeRecordHash_eq_ok.mp hexpected
      refine exists_verifyRecordSignature_iff.mpr ⟨?_, hload⟩
      rw [hok, heq]
      exact (encodable_recordSigningText _ _ _).mpr ⟨encodable_hexStr _, hid⟩

/-- The hash behind records in order is hexadecimal, or that of the genesis. -/
theorem isAscii_hashBehind {xs : List AuditRecord} (h : Accepted M xs) :
    IsAscii (hashBehind xs) := by
  rw [hashBehind, endHash_eq_getLast]
  cases hlast : xs.getLast? with
  | none =>
    show IsAscii GENESIS_HASH
    decide
  | some r =>
    obtain ⟨data, -, hhash⟩ := (h.records r (List.mem_of_getLast? hlast)).exists_digest
    show IsAscii r.hash
    rw [hhash]
    exact isAscii_hexStr _

variable (M) in
/-- The verification can work on every record that it comes to hash: one that is numbered
and linked behind records in order, under a key that is known. -/
def NeverStuck (records : List AuditRecord) : Prop :=
  ∀ (xs : List AuditRecord) (r : AuditRecord) (ys : List AuditRecord), records = xs ++ r :: ys →
    Accepted M xs → r.seq = xs.length → r.prevHash = hashBehind xs →
      (r.keyId ≠ [] → M.keyFor r ≠ none) → Checkable M r

theorem neverStuck_iff {records : List AuditRecord} : NeverStuck M records ↔
    ∀ xs r ys, records = xs ++ r :: ys → Accepted M xs →
      ∃ reason, checkRecord M xs.length (hashBehind xs) r = .ok reason :=
  forall_congr' fun _ => forall_congr' fun _ => forall_congr' fun _ => forall_congr' fun _ =>
    forall_congr' fun hxs => (exists_checkRecord_iff (isAscii_hashBehind hxs)).symm

/-- There is always a report on records that pass the loop. -/
theorem Accepted.exists_report {records : List AuditRecord} (h : Accepted M records)
    (checkpoint : Option Checkpoint) :
    ∃ report, verifyRecords records M none checkpoint = .ok report := by
  obtain ⟨root, hroot⟩ := h.exists_root
  have hloop := (verifyLoop_ok_iff records 0 0 GENESIS_HASH _).mpr ⟨h.chained, h.records, rfl⟩
  refine ⟨finishReport records checkpoint (0 + countSigned M records) root, ?_⟩
  simp only [verifyRecords, Option.bind_none, hloop, hroot, ok_bind]
  rfl

/-- A count that fits changes nothing, and any other ends the verification. -/
theorem verifyRecords_count (records : List AuditRecord) (M : KeyMaterial P) (n : Option ℤ)
    (checkpoint : Option Checkpoint) :
    ((∀ m, n = some m → (records.length : ℤ) = m) ∧
      verifyRecords records M n checkpoint = verifyRecords records M none checkpoint) ∨
    (¬(∀ m, n = some m → (records.length : ℤ) = m) ∧
      ∃ report, verifyRecords records M n checkpoint = .ok report) := by
  cases hcount : n.bind (checkCount records) with
  | none =>
    refine Or.inl ⟨?_, ?_⟩
    · rintro m rfl
      exact checkCount_eq_none.mp hcount
    · simp only [verifyRecords, hcount, Option.bind_none]
  | some report =>
    obtain ⟨m, rfl, hm⟩ := Option.bind_eq_some_iff.mp hcount
    refine Or.inr ⟨fun h => ?_, report, ?_⟩
    · rw [checkCount_eq_none.mpr (h m rfl)] at hm
      cases hm
    · simp only [verifyRecords, hcount]
      rfl

theorem exists_verifyRecords_iff (records : List AuditRecord) (M : KeyMaterial P) (n : Option ℤ)
    (checkpoint : Option Checkpoint) :
    (∃ report, verifyRecords records M n checkpoint = .ok report) ↔
      ((∀ m, n = some m → (records.length : ℤ) = m) → NeverStuck M records) := by
  rcases verifyRecords_count records M n checkpoint with ⟨hfits, heq⟩ | ⟨hno, hreport⟩
  swap
  · exact iff_of_true hreport fun h => absurd h hno
  rw [heq, forall_prop_of_true hfits, neverStuck_iff]
  constructor
  · rintro ⟨report, hreport⟩ xs r ys rfl hxs
    by_cases hpass : checkRecord M xs.length (hashBehind xs) r = .ok none
    · exact ⟨none, hpass⟩
    rcases verifyRecords_stop ⟨hxs, hpass⟩ ys checkpoint with ⟨reason, hcheck, -⟩ | ⟨e, -, hraise⟩
    · exact ⟨some reason, hcheck⟩
    · rw [hreport] at hraise
      cases hraise
  · intro h
    by_cases hacc : Accepted M records
    · exact hacc.exists_report checkpoint
    obtain ⟨xs, r, ys, rfl, hstop⟩ := exists_stopsAt hacc
    obtain ⟨reason, hcheck⟩ := h xs r ys rfl hstop.accepted
    rcases verifyRecords_stop hstop ys checkpoint with ⟨reason', -, hreport⟩ | ⟨e, herror, -⟩
    · exact ⟨_, hreport⟩
    · rw [hcheck] at herror
      cases herror

theorem exists_listGet_iff {α : Type} (xs : List α) (i : ℤ) :
    (∃ x, listGet xs i = .ok x) ↔ -(xs.length : ℤ) ≤ i ∧ i < xs.length := by
  unfold listGet
  constructor
  · rintro ⟨x, hx⟩
    split at hx
    · rename_i y hy
      have hlt := (List.getElem?_eq_some_iff.mp hy).1
      split at hx
      · cases hx
      · split at hlt <;> omega
    · cases hx
  · rintro ⟨hlo, hhi⟩
    have hlt : (if i < 0 then i + xs.length else i).toNat < xs.length := by
      split <;> omega
    have hnot : ¬i + xs.length < 0 := by omega
    rw [List.getElem?_eq_getElem hlt]
    exact ⟨_, if_neg hnot⟩

/-- The anchor check comes to an end unless the position is too far below zero. -/
theorem exists_checkAnchor_iff {records : List AuditRecord} {c : Checkpoint} :
    (∃ verdict, checkAnchor records c = .ok verdict) ↔ -(records.length : ℤ) ≤ c.seq := by
  unfold checkAnchor
  by_cases hlen : (records.length : ℤ) ≤ c.seq
  · rw [if_pos hlen]
    exact iff_of_true ⟨_, rfl⟩ (by omega)
  rw [if_neg hlen]
  have hget := exists_listGet_iff records c.seq
  constructor
  · rintro ⟨verdict, h⟩
    obtain ⟨r, hr, -⟩ := bind_eq_ok.mp h
    exact (hget.mp ⟨r, hr⟩).1
  · intro hlo
    obtain ⟨r, hr⟩ := hget.mpr ⟨hlo, by omega⟩
    rw [hr, ok_bind]
    split <;> exact ⟨_, rfl⟩

/-- The position of the checkpoint is not too far below zero and, unless the anchor or
the count end the verification already, it can work on every record that it hashes. -/
def ComesToReport (records : List AuditRecord) (M : KeyMaterial P) (expectedCount : Option ℤ)
    (checkpoint : Option Checkpoint) : Prop :=
  (∀ c, checkpoint = some c → -(records.length : ℤ) ≤ c.seq) ∧
    ((∀ c, checkpoint = some c → Anchored records c) →
      (∀ n, expectedCount = some n → (records.length : ℤ) = n) → NeverStuck M records)

/-- **When there is a report.** -/
theorem exists_verifyChain_iff (records : List AuditRecord) (M : KeyMaterial P)
    (expectedCount : Option ℤ) (checkpoint : Option Checkpoint) :
    (∃ report, verifyChain records M expectedCount checkpoint = .ok report) ↔
      ComesToReport records M expectedCount checkpoint := by
  rw [ComesToReport, ← exists_verifyRecords_iff records M expectedCount checkpoint]
  cases checkpoint with
  | none => simp [verifyChain_none]
  | some c =>
    have hall : ∀ p : Checkpoint → Prop, (∀ c', some c = some c' → p c') ↔ p c :=
      fun p => ⟨fun h => h c rfl, fun h c' hc' => Option.some.inj hc' ▸ h⟩
    rw [hall, hall, ← exists_checkAnchor_iff, ← checkAnchor_eq_none, verifyChain,
      Option.mapM_some]
    cases hcheck : checkAnchor records c with
    | error e => simp
    | ok verdict =>
      cases verdict with
      | none => simp
      | some report => simp

/-! ### A verdict on every list of texts -/

/-- **The report points at the first record out of order.**  On records with UTF-8 text and
usable public keys there is a report; it has accepted all in front of the record that it
names, and whatever ends behind that record is refused there.  So a list is accepted
exactly when all that it starts with is. -/
theorem verifyChain_pointsAt (records : List AuditRecord) (M : KeyMaterial P) :
    ((∀ r ∈ records, (PyVal.dict r.metadata).serializable = true ∧ r.EncodablePayload ∧
        Encodable r.signerId) →
      (∀ signers id key, M.signers = some signers → signers.lookup id = some key →
        ∃ k, loadPublicKey P key = .ok k) →
          ∃ report, verifyChain records M none none = .ok report) ∧
    (∀ report, verifyChain records M none none = .ok report →
      ∃ n, PointsAt M records report n) ∧
    (Accepts M records ↔ ∀ k ≤ records.length, Accepts M (records.take k)) ∧
    ∀ more, ¬Accepts M records → ¬Accepts M (records ++ more) := by
  refine ⟨fun htexts hkeys => ?_, fun report hreport => exists_pointsAt hreport, ?_, ?_⟩
  · rw [exists_verifyChain_iff]
    refine ⟨by simp, fun _ _ xs r ys heq _ _ _ _ => ?_⟩
    obtain ⟨hser, henc, hid⟩ := htexts r (by simp [heq])
    exact ⟨hser, henc, fun signers key hsigners _ _ hlookup =>
      ⟨hid, hkeys signers _ key hsigners hlookup⟩⟩
  · simp only [accepts_iff]
    constructor
    · intro h k _
      exact h.take k
    · intro h
      have hall := h records.length le_rfl
      rwa [List.take_length] at hall
  · intro more h
    rw [accepts_iff] at h ⊢
    exact fun hacc => h hacc.left

/-! ### Half a character -/

/-- A line of JSON with the escape of half a character in it. -/
def halfLine : PyStr :=
  lit "\x7b\"seq\":0,\"ts\":\"t\",\"actor\":\"\\ud800\",\"action\":\"a\",\"prev_hash\":\""
    ++ GENESIS_HASH ++ lit "\",\"hash\":\"\"\x7d"

/-- The record on it has that as its actor. -/
theorem halfLine_spec : ∃ v r, loads referenceRuntime.floats halfLine = .ok v ∧
    AuditRecord.fromStored referenceRuntime v = .ok r ∧
      r.seq = 0 ∧ r.prevHash = GENESIS_HASH ∧ r.keyId = [] ∧ r.actor = [0xd800] := by
  have hfields : (do
      let v ← loads referenceRuntime.floats halfLine
      let r ← AuditRecord.fromStored referenceRuntime v
      return (r.seq, r.prevHash, r.keyId, r.actor))
        = .ok ((0, GENESIS_HASH, [], [0xd800]) : ℤ × PyStr × PyStr × PyStr) := by
    decide +kernel
  obtain ⟨v, hv, hfields⟩ := bind_eq_ok.mp hfields
  obtain ⟨r, hr, hfields⟩ := bind_eq_ok.mp hfields
  simp only [pure_eq_ok, Except.ok.injEq, Prod.mk.injEq] at hfields
  exact ⟨v, r, hv, hr, hfields⟩

/-- Half a character in a file is an exception, not a report. -/
theorem exists_verifyChain_counterexample :
    ¬∀ (P : Runtime) (text : PyStr) (v : PyVal) (r : AuditRecord) (M : KeyMaterial P),
      loads P.floats text = .ok v → AuditRecord.fromStored P v = .ok r →
        ∃ report, verifyChain [r] M none none = .ok report := by
  intro hclaim
  obtain ⟨v, r, hloads, hstored, hseq, hprev, hkeyId, hactor⟩ := halfLine_spec
  obtain ⟨report, hreport⟩ :=
    hclaim referenceRuntime halfLine v r ⟨none, none, none⟩ hloads hstored
  rw [verifyChain_none] at hreport
  have hnever := (exists_verifyRecords_iff _ _ _ _).mp ⟨report, hreport⟩ (by simp)
  have hcheckable := hnever [] r [] rfl ⟨trivial, by simp⟩ hseq hprev (fun h => absurd hkeyId h)
  obtain ⟨-, hencodable, -⟩ := encodablePayload_iff.mp hcheckable.encodable
  rw [hactor] at hencodable
  exact absurd hencodable (by decide)

end AuditChain
