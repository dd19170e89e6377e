/-
AuditChain/Tamper.lean

What an accepted list of records can be.

The adversary hands in any list of records and the verifier accepts it.  Two
things can tie the list to a chain that a log really wrote:

    sealed_prefix      the seal keys: the list is a prefix of one honest chain
    signed_prefix      the signatures, when the seal keys are known to everybody

Each names the values that must not collide or be forged, and only those: the
pairs of key and bytes that were hashed in the runs and in the list.
-/
import AuditChain.Appending
import AuditChain.Payload

namespace AuditChain

open Python HashChain Machine

variable {P : Runtime}

/-! ### Same records -/

variable (P) in
/-- Two records agree on every field that is hashed, and on the hash. -/
structure SameRecord (r s : AuditRecord) : Prop where
  content : SameContent P r s
  sortedMetadata : r.sortedMetadata P = s.sortedMetadata P
  hash : r.hash = s.hash

/-- The list is a prefix of the chain, position by position, up to `Same`. -/
def PrefixOf (Same : AuditRecord → AuditRecord → Prop) (list chain : List AuditRecord) : Prop :=
  list.length ≤ chain.length ∧
    ∀ i (hl : i < list.length) (hc : i < chain.length), Same list[i] chain[i]

/-- A prefix can be checked position by position. -/
theorem prefixOf_of_forall {Same : AuditRecord → AuditRecord → Prop}
    {list chain : List AuditRecord}
    (h : ∀ i (hl : i < list.length), ∃ hc : i < chain.length, Same list[i] chain[i]) :
    PrefixOf Same list chain := by
  refine ⟨?_, fun i hl hc => (h i hl).2⟩
  rcases Nat.eq_zero_or_pos list.length with hzero | hpos
  · omega
  · obtain ⟨hlast, -⟩ := h (list.length - 1) (by omega)
    omega

/-- The pair of key and bytes that an entry was hashed from. -/
def Entry.Hashed (e : Entry P) (kd : Option Bytes × Bytes) : Prop :=
  e.writer.sealKey = kd.1 ∧ hashInput P e.record = .ok kd.2

/-- The pair of key and bytes that the verifier hashes for a record. -/
def KeyMaterial.Hashes (M : KeyMaterial P) (r : AuditRecord) (kd : Option Bytes × Bytes) : Prop :=
  M.keyFor r = kd.1 ∧ hashInput P r = .ok kd.2

theorem WrittenBy.exists_hashed {e : Entry P} (h : WrittenBy e.writer e.record) :
    ∃ kd, e.Hashed kd ∧ e.record.hash = (P.seal kd.1 kd.2).hex := by
  obtain ⟨data, hdata, hhash⟩ := h.hashed
  exact ⟨(e.writer.sealKey, data), ⟨rfl, hdata⟩, hhash⟩

theorem RecordOk.exists_hashes {M : KeyMaterial P} {r : AuditRecord} (h : RecordOk M r) :
    ∃ kd, M.Hashes r kd ∧ r.hash = (P.seal kd.1 kd.2).hex := by
  obtain ⟨data, hdata, hhash⟩ := h.exists_digest
  exact ⟨(M.keyFor r, data), ⟨rfl, hdata⟩, hhash⟩

theorem Entry.Hashed.unique {e : Entry P} {kd kd' : Option Bytes × Bytes} (h : e.Hashed kd)
    (h' : e.Hashed kd') : kd = kd' :=
  Prod.ext (h.1.symm.trans h'.1) (Except.ok.inj (h.2.symm.trans h'.2))

/-- A log verifies with the pair that it hashed. -/
theorem WrittenBy.hashes_iff {log : AuditLog P} {r : AuditRecord} (h : WrittenBy log r)
    {kd : Option Bytes × Bytes} :
    (log.keyMaterial none).Hashes r kd ↔ Entry.Hashed ⟨log, r⟩ kd := by
  rw [KeyMaterial.Hashes, Entry.Hashed, h.keyFor]

/-- Equal hashes of a record of the list and of an honest one mean equal contents. -/
theorem sameContent_of_hash {M : KeyMaterial P} {r : AuditRecord} {e : Entry P}
    {pairs : Set (Option Bytes × Bytes)}
    (hinj : Set.InjOn (fun kd : Option Bytes × Bytes => P.seal kd.1 kd.2) pairs)
    (hr : RecordOk M r) (he : WrittenBy e.writer e.record)
    (hrp : ∀ kd, M.Hashes r kd → r.hash = (P.seal kd.1 kd.2).hex → kd ∈ pairs)
    (hep : ∀ kd, e.Hashed kd → kd ∈ pairs)
    (hhash : r.hash = e.record.hash) : SameContent P r e.record := by
  obtain ⟨kd, hkd, hrh⟩ := hr.exists_hashes
  obtain ⟨kd', hkd', heh⟩ := he.exists_hashed
  rw [hrh, heh] at hhash
  obtain rfl := hinj (hrp kd hkd hrh) (hep kd' hkd') (Digest.hex_inj hhash)
  exact hashInput_inj hkd.2 hkd'.2

/-- What a run hashed does not collide, if the hashes that it stored are different. -/
theorem injOn_of_nodup {run : HonestRun P} (hnodup : (run.chain.map AuditRecord.hash).Nodup)
    {pairs : Set (Option Bytes × Bytes)} (h : ∀ kd ∈ pairs, ∃ e ∈ run.trace, e.Hashed kd) :
    Set.InjOn (fun kd : Option Bytes × Bytes => P.seal kd.1 kd.2) pairs := by
  have hhash : ∀ e ∈ run.trace, ∀ kd, e.Hashed kd → e.record.hash = (P.seal kd.1 kd.2).hex := by
    intro e he kd hkd
    obtain ⟨kd', hkd', heq⟩ := (run.written e he).exists_hashed
    rwa [hkd.unique hkd']
  rw [run.chain_eq, List.map_map] at hnodup
  intro kd hkd kd' hkd' hsame
  obtain ⟨e, he, hhashed⟩ := h kd hkd
  obtain ⟨e', he', hhashed'⟩ := h kd' hkd'
  obtain rfl : e = e' := by
    refine List.inj_on_of_nodup_map hnodup he he' ?_
    show e.record.hash = e'.record.hash
    rw [hhash e he kd hhashed, hhash e' he' kd' hhashed', show P.seal kd.1 kd.2 = _ from hsame]
  exact hhashed.unique hhashed'

/-- What is hashed for a record of a run that kept its keys, the run has hashed. -/
theorem KeptRun.exists_hashed {run : HonestRun P}
    (h : KeptRun run.log [] run.trace run.world) {r : AuditRecord} (hr : r ∈ run.chain)
    {kd : Option Bytes × Bytes} (hkd : (run.log.keyMaterial none).Hashes r kd) :
    ∃ e ∈ run.trace, e.Hashed kd := by
  obtain ⟨e, he, rfl⟩ := HonestRun.exists_entry hr
  have hkeys := h.writers e he
  have hhashed := (hkeys.writtenBy (run.written e he)).hashes_iff.mp hkd
  exact ⟨e, he, hkeys.fields.1.trans hhashed.1, hhashed.2⟩

/-! ### Seal keys -/

/-- **A sealed list is a prefix of an honest chain.**  Take any honest runs, and any
list that is accepted with a seal key.  If no tag in the list was forged, the list is a
prefix of one of the chains. -/
theorem sealed_prefix (runs : List (HonestRun P)) (hne : runs ≠ [])
    (hjson : ∀ run ∈ runs, ∀ r ∈ run.chain, r.JsonMetadata)
    (hinj : Set.InjOn (fun kd : Option Bytes × Bytes => P.seal kd.1 kd.2)
      { kd | ∃ run ∈ runs, ∃ e ∈ run.trace, e.Hashed kd })
    (list : List AuditRecord) (M : KeyMaterial P) (hM : M.sealKey ≠ none)
    (hljson : ∀ l ∈ list, l.JsonMetadata)
    (hforge : ∀ l ∈ list, ∀ key data, M.Hashes l (some key, data) →
      l.hash = (P.hmacSha256 key data).hex →
        ∃ run ∈ runs, ∃ e ∈ run.trace, e.Hashed (some key, data))
    (expectedCount : Option ℤ) (checkpoint : Option Checkpoint)
    (hok : ∃ report, verifyChain list M expectedCount checkpoint = .ok report ∧
      report.ok = true) :
    ∃ run ∈ runs, PrefixOf (SameRecord P) list run.chain := by
  obtain ⟨report, hreport⟩ := hok
  have hacc := (verifyChain_ok_iff.mp hreport).1
  -- every tag in the list was computed by one of the runs
  have hkeyed : ∀ l ∈ list, ∀ kd, M.Hashes l kd → l.hash = (P.seal kd.1 kd.2).hex →
      ∃ run ∈ runs, ∃ e ∈ run.trace, e.Hashed kd := by
    rintro l hl ⟨key, data⟩ hkd hhash
    cases key with
    | some key => exact hforge l hl key data hkd hhash
    | none =>
      by_cases hid : l.keyId = []
      · exact absurd ((M.keyFor_of_nil hid).symm.trans hkd.1) hM
      · exact absurd hkd.1 ((hacc.records l hl).keyKnown hid)
  rcases Nat.eq_zero_or_pos list.length with hzero | hpos
  · obtain ⟨run, hrun⟩ := List.exists_mem_of_ne_nil runs hne
    exact ⟨run, hrun, by omega, fun i hl => by omega⟩
  -- the last record picks the chain
  have hlast : list.length - 1 < list.length := by omega
  have hmem := List.getElem_mem hlast
  obtain ⟨kd, hkd, hhash⟩ := (hacc.records _ hmem).exists_hashes
  obtain ⟨run, hrun, e, he, hekd⟩ := hkeyed _ hmem kd hkd hhash
  have hcontent : SameContent P list[list.length - 1] e.record := hashInput_inj hkd.2 hekd.2
  have hehash : e.record.hash = (P.seal kd.1 kd.2).hex := by
    obtain ⟨data, hdata, heq⟩ := (run.written e he).hashed
    rw [hekd.2, Except.ok.injEq] at hdata
    rw [heq, ← hdata, hekd.1]
  have hseq : e.record.seq = (list.length - 1 : ℕ) := by
    rw [← hcontent.seq, hacc.chained.seq_getElem _ hlast]
  obtain ⟨hlt, hget⟩ := HonestRun.getElem_of_seq he hseq
  -- and from there on agreement runs backwards
  have hsame : ∀ x ∈ list, ∀ y ∈ run.chain, recordLinks.hash x = recordLinks.hash y →
      SameContent P x y := by
    intro x hx y hy hxy
    obtain ⟨e', he', rfl⟩ := HonestRun.exists_entry hy
    exact sameContent_of_hash hinj (hacc.records x hx) (run.written e' he')
      (fun kd hkd hhash => hkeyed x hx kd hkd hhash) (fun kd hkd => ⟨run, hrun, e', he', hkd⟩) hxy
  refine ⟨run, hrun, by omega, fun i hl hc => ?_⟩
  obtain ⟨hih, hic⟩ := agree_backwards hacc.chained run.chained hsame
    (fun _ _ h => h.prevHash) _ hlast hlt (by
      rw [recordLinks_hash, recordLinks_hash, hget, hhash, hehash]) i (by omega)
  exact ⟨hic, hic.sortedMetadata (hljson _ (List.getElem_mem hl))
    (hjson run hrun _ (List.getElem_mem hc)), hih⟩

theorem sealed_prefix_sample :
    ∃ run ∈ [pairRun], PrefixOf (SameRecord referenceRuntime) pairRun.chain run.chain := by
  obtain ⟨-, hmeta, hnodup⟩ := pairRun_spec
  have hjson : ∀ r ∈ pairRun.chain, r.JsonMetadata := fun r hr =>
    jsonMetadata_of_nil (hmeta r hr)
  have hkept := pairRun.kept referenceRuntime_signaturesVerify keeps_pairRun
  refine sealed_prefix [pairRun] (by simp) (by simpa using hjson) (injOn_of_nodup hnodup ?_)
    pairRun.chain (sampleLog.keyMaterial none) (Option.some_ne_none _) hjson ?_ none none
    (verifyChain_plain_iff.mpr hkept.accepted)
  · rintro kd ⟨run, hrun, hkd⟩
    rwa [List.mem_singleton.mp hrun] at hkd
  · intro l hl key data hkd _
    exact ⟨pairRun, List.mem_singleton_self _, hkept.exists_hashed hl hkd⟩

/-! ### Signatures -/

variable (P) in
/-- Two records agree on every field that is hashed, on the hash and on the signer. -/
structure SameSigned (r s : AuditRecord) : Prop where
  content : SameContent P r s
  sortedMetadata : r.JsonMetadata → s.JsonMetadata → r.sortedMetadata P = s.sortedMetadata P
  hash : r.hash = s.hash
  signerId : r.signerId = s.signerId

/-- **A signed list is a prefix of the honest chain**, whoever knows the seal keys.  If
no signature in the list was forged, every record of it was signed, at its position and
by its signer, and the list is a prefix of the chain. -/
theorem signed_prefix (run : HonestRun P) (list : List AuditRecord) (M : KeyMaterial P)
    (signers : StrDict (KeyArg P.PublicKey)) (hsigners : M.signers = some signers)
    (hforge : ∀ l ∈ list, ∀ arg key sig message, signers.lookup l.signerId = some arg →
      loadPublicKey P arg = .ok key → fromHex l.signature = .ok sig →
        recordSigningMessage l = .ok message → P.verify key sig message = true →
          ∃ e ∈ run.trace, ∃ k, e.writer.signingKey = some k ∧ P.publicKey k = key ∧
            recordSigningMessage e.record = .ok message)
    (hinj : Set.InjOn (fun kd : Option Bytes × Bytes => P.seal kd.1 kd.2)
      { kd | (∃ e ∈ run.trace, e.Hashed kd) ∨ ∃ l ∈ list, M.Hashes l kd })
    (expectedCount : Option ℤ) (checkpoint : Option Checkpoint) (report : VerifyReport)
    (hreport : verifyChain list M expectedCount checkpoint = .ok report)
    (hok : report.ok = true) :
    report.signedRecords = list.length ∧ PrefixOf (SameSigned P) list run.chain := by
  obtain ⟨hacc, -, -, root, -, -, rfl⟩ := verifyChain_ok_iff.mp ⟨hreport, hok⟩
  refine ⟨?_, prefixOf_of_forall fun i hl => ?_⟩
  · rw [okReport, countSigned, hsigners]
    rfl
  have hmem := List.getElem_mem hl
  have hrec := hacc.records _ hmem
  -- the signature is one that a log made
  obtain ⟨-, arg, hlookup, hver⟩ := hrec.signature signers hsigners
  obtain ⟨message, hmessage, hver⟩ := verifyRecordSignature_eq_true.mp hver
  obtain ⟨key, sig, hload, hsig, hver⟩ := verifySignature_eq_true.mp hver
  obtain ⟨e, he, k, -, -, hemessage⟩ :=
    hforge _ hmem arg key sig message hlookup hload hsig hmessage hver
  have hwritten := run.written e he
  -- so it was made for this position, this hash and this signer
  obtain ⟨kd, hkd, hhash⟩ := hrec.exists_hashes
  obtain ⟨kd', hkd', hehash⟩ := hwritten.exists_hashed
  have htext := utf8Encode_inj hmessage hemessage
  rw [hhash, hehash] at htext
  obtain ⟨hseq, hhex, hsigner⟩ := recordSigningText_inj htext
  obtain ⟨hlt, hget⟩ := HonestRun.getElem_of_seq he
    (by rw [← hseq, hacc.chained.seq_getElem i hl])
  have heq : list[i].hash = e.record.hash := by
    rw [hhash, hehash]
    exact hhex
  have hsame := sameContent_of_hash hinj hrec hwritten (fun kd hkd _ => Or.inr ⟨_, hmem, hkd⟩)
    (fun kd hkd => Or.inl ⟨e, he, hkd⟩) heq
  refine ⟨hlt, ?_⟩
  rw [hget]
  exact ⟨hsame, hsame.sortedMetadata, heq, hsigner⟩

theorem signed_prefix_sample : ∃ report,
    verifyChain pairRun.chain (sampleLog.keyMaterial none) none none = .ok report ∧
      report.signedRecords = pairRun.chain.length ∧
        PrefixOf (SameSigned referenceRuntime) pairRun.chain pairRun.chain := by
  obtain ⟨-, -, hnodup⟩ := pairRun_spec
  have hkept := pairRun.kept referenceRuntime_signaturesVerify keeps_pairRun
  obtain ⟨report, hreport, hok⟩ := verifyChain_plain_iff.mpr hkept.accepted
  refine ⟨report, hreport, signed_prefix pairRun pairRun.chain (sampleLog.keyMaterial none)
    _ (signers_keyMaterial sampleLog) ?_ (injOn_of_nodup hnodup ?_) none none report hreport hok⟩
  · intro l hl arg key sig message hlookup hload _ hmessage _
    obtain ⟨e, he, rfl⟩ := HonestRun.exists_entry hl
    have hkeys := hkept.writers e he
    refine ⟨e, he, _, hkeys.signingKey, ?_, hmessage⟩
    have hid : e.record.signerId = sampleLog.signerId :=
      (hkeys.writtenBy (pairRun.written e he)).signerId
    rw [hid, AList.lookup_insert, Option.some.injEq] at hlookup
    subst hlookup
    exact Except.ok.inj ((loadPublicKey_object rfl _).symm.trans hload)
  · rintro kd (hkd | ⟨l, hl, hkd⟩)
    · exact hkd
    · exact hkept.exists_hashed hl hkd

end AuditChain
