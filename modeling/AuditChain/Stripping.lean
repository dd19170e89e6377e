/-
AuditChain/Stripping.lean

Records without a key id, under a keyring alone.

The key id of a record is not hashed, and decides which key the record is
checked under: one from the keyring, or, when it is empty, the seal key that the
caller passed.  A caller who passes a keyring and no seal key checks a record
without a key id by its plain hash, which anybody can compute.  The signers are
treated differently: once there are any, every record has to be signed.

    keyring_prefix_iff    an accepted list is a prefix of the sealed log unless it
                          goes on behind one with records without a key id
-/
import AuditChain.Tamper

namespace AuditChain

open Python HashChain Machine

variable {P : Runtime}

/-! ### A keyring and no seal key -/

variable (P) in
/-- `seal_key=None, keyring=keyring, signers=None`. -/
def keyringOnly (keyring : StrDict Bytes) : KeyMaterial P := ⟨none, some keyring, none⟩

/-- The entry was sealed under a key of the keyring, and names it. -/
structure Entry.SealedUnder (e : Entry P) (keyring : StrDict Bytes) : Prop where
  named : e.record.keyId ≠ []
  sealed : ∃ key, e.writer.sealKey = some key ∧ keyring.lookup e.record.keyId = some key

variable {keyring : StrDict Bytes}

theorem keyFor_keyringOnly (keyring : StrDict Bytes) (r : AuditRecord) :
    (keyringOnly P keyring).keyFor r = if r.keyId = [] then none else keyring.lookup r.keyId := by
  rfl

theorem keyFor_of_keyId {r : AuditRecord} (h : r.keyId ≠ []) :
    (keyringOnly P keyring).keyFor r = keyring.lookup r.keyId := by
  rw [keyFor_keyringOnly, if_neg h]

/-- A record is in order when its hash is the one under the key that it names, and the
plain one when it names none. -/
theorem recordOk_keyringOnly {r : AuditRecord} : RecordOk (keyringOnly P keyring) r ↔
    (r.keyId = [] → computeRecordHash P r none = .ok r.hash) ∧
      (r.keyId ≠ [] → ∃ key, keyring.lookup r.keyId = some key ∧
        computeRecordHash P r (some key) = .ok r.hash) := by
  constructor
  · intro h
    refine ⟨fun hid => ?_, fun hid => ?_⟩
    · have hhash := h.hash
      rwa [KeyMaterial.keyFor_of_nil hid] at hhash
    · have hknown := h.keyKnown hid
      have hhash := h.hash
      rw [keyFor_of_keyId hid] at hknown hhash
      obtain ⟨key, hkey⟩ := Option.ne_none_iff_exists'.mp hknown
      rw [hkey] at hhash
      exact ⟨key, hkey, hhash⟩
  · rintro ⟨hplain, hkeyed⟩
    refine ⟨fun hid => ?_, ?_, fun signers h => by cases h⟩
    · obtain ⟨key, hkey, -⟩ := hkeyed hid
      rw [keyFor_of_keyId hid, hkey]
      exact Option.some_ne_none key
    · by_cases hid : r.keyId = []
      · rw [KeyMaterial.keyFor_of_nil hid]
        exact hplain hid
      · obtain ⟨key, hkey, hhash⟩ := hkeyed hid
        rw [keyFor_of_keyId hid, hkey]
        exact hhash

/-! ### Lists that go on without key ids -/

variable (P) in
/-- The list starts with `k` records of the chain, under key ids, and goes on with records
that have none and carry a plain hash.  One such record alone may also restate the record
of the chain that comes next; that is left out. -/
structure Downgraded (keyring : StrDict Bytes) (chain list : List AuditRecord) (k : ℕ) :
    Prop where
  chained : ChainedRecords list
  keyed : ∀ i (hl : i < list.length), i < k →
    (list[i].keyId ≠ [] ∧ ∃ key, keyring.lookup list[i].keyId = some key ∧
      computeRecordHash P list[i] (some key) = .ok list[i].hash) ∧
    ∃ hc : i < chain.length, SameContent P list[i] chain[i]
  plain : ∀ i (hl : i < list.length), k ≤ i →
    list[i].keyId = [] ∧ computeRecordHash P list[i] none = .ok list[i].hash
  goesOn : k < list.length
  own : ¬(list.length = k + 1 ∧
    ∃ (hl : k < list.length) (hc : k < chain.length), SameContent P list[k] chain[k])

section

variable {run : HonestRun P} {list : List AuditRecord}
  (hforge : ∀ l ∈ list, ∀ key data, (keyringOnly P keyring).Hashes l (some key, data) →
    l.hash = (P.hmacSha256 key data).hex → ∃ e ∈ run.trace, e.Hashed (some key, data))
  (hcross : ∀ l ∈ list, ∀ data, hashInput P l = .ok data →
    ∀ e ∈ run.trace, e.record.hash ≠ (P.sha256 data).hex)

include hforge in
/-- An accepted record with a key id is the honest record at its position. -/
theorem honest_of_keyId (hacc : Accepted (keyringOnly P keyring) list) {i : ℕ}
    (hl : i < list.length) (hid : list[i].keyId ≠ []) : ∃ hc : i < run.chain.length,
      SameContent P list[i] run.chain[i] ∧ list[i].hash = run.chain[i].hash := by
  have hmem := List.getElem_mem hl
  obtain ⟨key, hkey, hhash⟩ :=
    (recordOk_keyringOnly.mp (hacc.records _ hmem)).2 hid
  obtain ⟨data, hdata, htag⟩ := computeRecordHash_eq_ok.mp hhash
  have hpair : (keyringOnly P keyring).Hashes list[i] (some key, data) :=
    ⟨by rw [keyFor_of_keyId hid, hkey], hdata⟩
  -- the tag was computed by a log, for these bytes
  obtain ⟨e, he, hekd⟩ := hforge _ hmem key data hpair htag
  have hcontent : SameContent P list[i] e.record := hashInput_inj hdata hekd.2
  obtain ⟨kd, hkd, hehash⟩ := (run.written e he).exists_hashed
  obtain rfl := hekd.unique hkd
  obtain ⟨hc, hget⟩ := HonestRun.getElem_of_seq he
    (by rw [← hcontent.seq, hacc.chained.seq_getElem i hl])
  refine ⟨hc, ?_, ?_⟩
  · rw [hget]
    exact hcontent
  · rw [hget, htag, hehash]

include hcross in
/-- The hash of a record without a key id is not one of the log. -/
theorem hash_ne_of_plain (hacc : Accepted (keyringOnly P keyring) list) {i j : ℕ}
    (hl : i < list.length) (hid : list[i].keyId = []) (hc : j < run.chain.length) :
    list[i].hash ≠ run.chain[j].hash := by
  have hmem := List.getElem_mem hl
  obtain ⟨data, hdata, hhash⟩ := computeRecordHash_eq_ok.mp
    ((recordOk_keyringOnly.mp (hacc.records _ hmem)).1 hid)
  obtain ⟨e, he, heq⟩ := HonestRun.exists_entry (List.getElem_mem hc)
  rw [hhash, ← heq]
  exact fun h => hcross _ hmem data hdata e he h.symm

/-- A record of the log links to the record of the log in front of it. -/
theorem prevHash_of_sameContent {i : ℕ} (hl : i + 1 < list.length)
    (hacc : Accepted (keyringOnly P keyring) list) (hc : i + 1 < run.chain.length)
    (hsame : SameContent P list[i + 1] run.chain[i + 1]) : list[i].hash = run.chain[i].hash := by
  have hlist := hacc.chained.prev_getElem i hl
  have hchain := run.chained.prev_getElem i hc
  simp only [recordLinks_prev, recordLinks_hash] at hlist hchain
  rw [← hlist, ← hchain, hsame.prevHash]

include hforge hcross in
/-- Behind a record without a key id no record has one. -/
theorem plain_behind (hacc : Accepted (keyringOnly P keyring) list) {k : ℕ}
    (hk : k < list.length) (hid : list[k].keyId = []) :
    ∀ i (hl : i < list.length), k ≤ i → list[i].keyId = [] := by
  intro i hl hki
  induction i, hki using Nat.le_induction with
  | base => exact hid
  | succ i hki ih =>
    -- a keyed record would link the plain one in front of it to the log
    by_contra hkeyed
    obtain ⟨hc, hsame, -⟩ := honest_of_keyId hforge hacc hl hkeyed
    exact hash_ne_of_plain hcross hacc (by omega) (ih (by omega)) (by omega)
      (prevHash_of_sameContent hl hacc hc hsame)

include hforge in
/-- Without such records an accepted list is a prefix of the log. -/
theorem prefixOf_of_keyed (hacc : Accepted (keyringOnly P keyring) list)
    (hkeyed : ∀ i (hl : i < list.length), list[i].keyId ≠ []) :
    PrefixOf (SameContent P) list run.chain := by
  apply prefixOf_of_forall
  intro i hl
  obtain ⟨hc, hsame, -⟩ := honest_of_keyId hforge hacc hl (hkeyed i hl)
  exact ⟨hc, hsame⟩

include hforge hcross in
/-- An accepted list that is no prefix of the log is downgraded. -/
theorem exists_downgraded (hacc : Accepted (keyringOnly P keyring) list)
    (hno : ¬PrefixOf (SameContent P) list run.chain) :
    ∃ k, Downgraded P keyring run.chain list k := by
  have hplain : ∃ k, ∃ hl : k < list.length, list[k].keyId = [] := by
    by_contra hall
    push Not at hall
    exact hno (prefixOf_of_keyed hforge hacc hall)
  classical
  -- the first record without a key id
  obtain ⟨k, ⟨hk, hid⟩, hfirst⟩ : ∃ k, (∃ hl : k < list.length, list[k].keyId = []) ∧
      ∀ i < k, ¬∃ hl : i < list.length, list[i].keyId = [] :=
    ⟨Nat.find hplain, Nat.find_spec hplain, fun i hi => Nat.find_min hplain hi⟩
  have hkeyed : ∀ i (hl : i < list.length), i < k → list[i].keyId ≠ [] :=
    fun i hl hi hnil => hfirst i hi ⟨hl, hnil⟩
  refine ⟨k, hacc.chained, fun i hl hi => ?_, fun i hl hi => ?_, hk, ?_⟩
  · obtain ⟨hc, hsame, -⟩ := honest_of_keyId hforge hacc hl (hkeyed i hl hi)
    exact ⟨⟨hkeyed i hl hi, (recordOk_keyringOnly.mp
      (hacc.records _ (List.getElem_mem hl))).2 (hkeyed i hl hi)⟩, hc, hsame⟩
  · have hnil := plain_behind hforge hcross hacc hk hid i hl hi
    exact ⟨hnil, (recordOk_keyringOnly.mp (hacc.records _ (List.getElem_mem hl))).1 hnil⟩
  · rintro ⟨hlen, _, hc, hsame⟩
    refine hno (prefixOf_of_forall fun i hl => ?_)
    rcases Nat.lt_or_ge i k with hi | hi
    · obtain ⟨hc', hsame', -⟩ := honest_of_keyId hforge hacc hl (hkeyed i hl hi)
      exact ⟨hc', hsame'⟩
    · obtain rfl : i = k := by omega
      exact ⟨hc, hsame⟩

end

/-- A downgraded list is accepted. -/
theorem Downgraded.accepted {chain list : List AuditRecord} {k : ℕ}
    (h : Downgraded P keyring chain list k) : Accepted (keyringOnly P keyring) list := by
  refine ⟨h.chained, fun r hr => recordOk_keyringOnly.mpr ?_⟩
  obtain ⟨i, hl, rfl⟩ := List.getElem_of_mem hr
  rcases Nat.lt_or_ge i k with hi | hi
  · obtain ⟨⟨hid, hkey⟩, -⟩ := h.keyed i hl hi
    exact ⟨fun hnil => absurd hnil hid, fun _ => hkey⟩
  · obtain ⟨hnil, hhash⟩ := h.plain i hl hi
    exact ⟨fun _ => hhash, fun hid => absurd hnil hid⟩

/-- And it is no prefix of the log: the record behind the first plain one does not link
to the log. -/
theorem Downgraded.not_prefixOf {run : HonestRun P} {list : List AuditRecord} {k : ℕ}
    (h : Downgraded P keyring run.chain list k)
    (hcross : ∀ l ∈ list, ∀ data, hashInput P l = .ok data →
      ∀ e ∈ run.trace, e.record.hash ≠ (P.sha256 data).hex) :
    ¬PrefixOf (SameContent P) list run.chain := by
  rintro ⟨hlen, hsame⟩
  have hk := h.goesOn
  by_cases hone : list.length = k + 1
  · exact h.own ⟨hone, hk, by omega, hsame k hk (by omega)⟩
  · exact hash_ne_of_plain hcross h.accepted hk (h.plain k hk le_rfl).1 (by omega)
      (prevHash_of_sameContent (by omega) h.accepted (by omega)
        (hsame (k + 1) (by omega) (by omega)))

/-- **What a keyring alone protects.**  Take any honest log, and any list in which no tag
was forged and no plain hash collides with a hash of the log.  If it is accepted it is a
prefix of the log, unless it goes on without key ids behind one. -/
theorem keyring_prefix_iff (keyring : StrDict Bytes) (run : HonestRun P)
    (list : List AuditRecord)
    (hforge : ∀ l ∈ list, ∀ key data, (keyringOnly P keyring).Hashes l (some key, data) →
      l.hash = (P.hmacSha256 key data).hex → ∃ e ∈ run.trace, e.Hashed (some key, data))
    (hcross : ∀ l ∈ list, ∀ data, hashInput P l = .ok data →
      ∀ e ∈ run.trace, e.record.hash ≠ (P.sha256 data).hex) :
    ((∃ report, verifyChain list (keyringOnly P keyring) none none = .ok report ∧
        report.ok = true) → PrefixOf (SameContent P) list run.chain) ↔
      ¬∃ k, Downgraded P keyring run.chain list k := by
  rw [verifyChain_plain_iff]
  constructor
  · rintro hagrees ⟨k, hk⟩
    exact hk.not_prefixOf hcross (hagrees hk.accepted)
  · intro hno hacc
    by_contra hnot
    exact hno (exists_downgraded hforge hcross hacc hnot)

/-! ### A record of one's own -/

/-- A record without a key id, under a plain hash. -/
def ownRecord : AuditRecord where
  seq := 0
  timestamp := lit "2024-01-01T00:00:00Z"
  actor := lit "mallory"
  action := lit "login"
  subject := []
  metadata := []
  prevHash := GENESIS_HASH
  hash := lit "e087c649193ed20c95fa30812082ac9c2eb9a6291620d9dcce8b0782463bc85a"

theorem hash_ownRecord :
    computeRecordHash referenceRuntime ownRecord none = .ok ownRecord.hash := by
  decide +kernel

/-- The log of the sample, by hash and actor. -/
theorem sampleRun_trace : ∃ r, sampleRun.trace = [⟨sampleLog, r⟩] ∧ r.actor = lit "alice" ∧
    r.hash ≠ ownRecord.hash := by
  obtain ⟨r, htrace, -, -⟩ := sampleRun_spec
  have hfields : sampleRun.trace.map (fun e =>
      (decide (e.record.actor = lit "alice"), decide (e.record.hash = ownRecord.hash)))
        = [(true, false)] := by
    decide +kernel
  rw [htrace] at hfields
  simp only [List.map_cons, List.map_nil, List.cons.injEq, Prod.mk.injEq, decide_eq_true_eq,
    decide_eq_false_iff_not, and_true] at hfields
  exact ⟨r, htrace, hfields⟩

theorem accepted_ownRecord (keyring : StrDict Bytes) :
    Accepted (keyringOnly referenceRuntime keyring) [ownRecord] := by
  refine ⟨⟨rfl, rfl, trivial⟩, fun r hr => ?_⟩
  rw [List.mem_singleton.mp hr]
  exact recordOk_keyringOnly.mpr ⟨fun _ => hash_ownRecord, fun hid => absurd rfl hid⟩

theorem not_prefixOf_ownRecord :
    ¬PrefixOf (SameContent referenceRuntime) [ownRecord] sampleRun.chain := by
  obtain ⟨r, htrace, hactor, -⟩ := sampleRun_trace
  obtain ⟨hchain, -, -⟩ := accepted_of_trace referenceRuntime_signaturesVerify htrace
  rw [hchain]
  rintro ⟨-, hsame⟩
  have hsameActor := (hsame 0 (by simp) (by simp)).actor
  simp only [List.getElem_cons_zero, hactor] at hsameActor
  exact absurd hsameActor (by decide)

/-- Nobody has to forge a tag for it. -/
theorem noTag_ownRecord {keyring : StrDict Bytes} {key data : Bytes} :
    ¬(keyringOnly referenceRuntime keyring).Hashes ownRecord (some key, data) :=
  fun h => by cases h.1

/-- The record of one's own downgrades the log. -/
theorem downgraded_sample :
    ∃ k, Downgraded referenceRuntime sampleLog.keyring sampleRun.chain [ownRecord] k := by
  by_contra hno
  have hprefix := (keyring_prefix_iff sampleLog.keyring sampleRun [ownRecord] ?_ ?_).mpr hno
    (verifyChain_plain_iff.mpr (accepted_ownRecord sampleLog.keyring))
  · exact not_prefixOf_ownRecord hprefix
  · intro l hl key data hpair _
    rw [List.mem_singleton.mp hl] at hpair
    exact absurd hpair noTag_ownRecord
  · intro l hl data hdata e he heq
    obtain ⟨r, htrace, -, hne⟩ := sampleRun_trace
    obtain ⟨data', hdata', hhash⟩ := computeRecordHash_eq_ok.mp hash_ownRecord
    rw [List.mem_singleton.mp hl, hdata', Except.ok.injEq] at hdata
    rw [htrace, List.mem_singleton] at he
    rw [he, ← hdata] at heq
    exact hne (heq.trans hhash.symm)

/-- Under a keyring alone a log can be replaced by records without key ids. -/
theorem keyring_prefix_counterexample :
    ¬∀ (P : Runtime) (keyring : StrDict Bytes) (run : HonestRun P) (list : List AuditRecord),
      keyring.entries ≠ [] → (∀ e ∈ run.trace, e.SealedUnder keyring) →
        (∀ l ∈ list, ∀ key data, (keyringOnly P keyring).Hashes l (some key, data) →
          l.hash = (P.hmacSha256 key data).hex → ∃ e ∈ run.trace, e.Hashed (some key, data)) →
        (∃ report, verifyChain list (keyringOnly P keyring) none none = .ok report ∧
          report.ok = true) → PrefixOf (SameContent P) list run.chain := by
  intro hclaim
  refine not_prefixOf_ownRecord (hclaim referenceRuntime sampleLog.keyring sampleRun [ownRecord]
    (by decide) ?_ ?_ (verifyChain_plain_iff.mpr (accepted_ownRecord sampleLog.keyring)))
  · intro e he
    obtain ⟨r, htrace, -, -⟩ := sampleRun_trace
    obtain ⟨-, hwritten, -⟩ := accepted_of_trace referenceRuntime_signaturesVerify htrace
    have hid : r.keyId = lit "k0" := hwritten.keyId
    rw [htrace, List.mem_singleton] at he
    rw [he]
    refine ⟨by rw [hid]; decide, _, rfl, ?_⟩
    rw [hid]
    exact AList.lookup_insert _
  · intro l hl key data hpair _
    rw [List.mem_singleton.mp hl] at hpair
    exact absurd hpair noTag_ownRecord

end AuditChain
