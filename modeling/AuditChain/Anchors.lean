/-
AuditChain/Anchors.lean

What an anchor fixes.

A checkpoint without a Merkle root holds one record hash, and with it everything
in front of that record.  A checkpoint with a root holds all record hashes.

    anchored_prefix       an accepted list agrees with the chain up to the anchor
    checkpoint_pins_log   an accepted list has the record hashes of the log

Neither needs a key.  The first says what is accepted about records that follow
the anchor as well: whatever is accepted without it.
-/
import AuditChain.MerkleRoots
import AuditChain.Tamper

namespace AuditChain

open Python HashChain HashTree

variable {P : Runtime}

/-! ### An anchored hash -/

/-- A list that passes with an anchor at position `k` has the anchored hash there. -/
theorem Anchored.getElem {list : List AuditRecord} {c : Checkpoint} {k : ℕ}
    (h : Anchored list c) (hk : c.seq = k) :
    ∃ hlt : k < list.length, (list[k]).hash = c.hash := by
  obtain ⟨hlen, r, hget, hhash⟩ := h
  rw [hk] at hlen hget
  have hlt : k < list.length := by exact_mod_cast hlen
  rw [listGet_natCast hlt, Except.ok.injEq] at hget
  exact ⟨hlt, by rw [hget, hhash]⟩

/-- A list that has the anchored hash at position `k` passes. -/
theorem anchored_of_getElem {list : List AuditRecord} {c : Checkpoint} {k : ℕ}
    (hk : c.seq = k) (hlt : k < list.length) (hhash : (list[k]).hash = c.hash) :
    Anchored list c := by
  refine ⟨by rw [hk]; exact_mod_cast hlt, list[k], ?_, hhash⟩
  rw [hk, listGet_natCast hlt]

/-- **An anchor fixes the prefix behind it**, with or without keys.  A list that is
accepted with an anchor at position `k` agrees with the chain up to `k`; and every
extension of the chain that is accepted without the anchor is accepted with it. -/
theorem anchored_prefix (run : HonestRun P) (hjson : ∀ r ∈ run.chain, r.JsonMetadata)
    (k : ℕ) (hk : k < run.chain.length) (sealKey : Option Bytes)
    (signingKey : Option (KeyArg P.PrivateKey)) (signerId : PyStr) (c : Checkpoint)
    (hc : makeCheckpoint P run.chain[k] sealKey [] signingKey signerId = .ok c)
    (M : KeyMaterial P) (expectedCount : Option ℤ) :
    (∀ list : List AuditRecord, (∀ l ∈ list, l.JsonMetadata) →
      Set.InjOn (fun kd : Option Bytes × Bytes => P.seal kd.1 kd.2)
        { kd | (∃ e ∈ run.trace, e.Hashed kd) ∨ ∃ l ∈ list, M.Hashes l kd } →
      (∃ report, verifyChain list M expectedCount (some c) = .ok report ∧ report.ok = true) →
        k < list.length ∧ PrefixOf (SameRecord P) (list.take (k + 1)) run.chain) ∧
    ∀ (rest : List AuditRecord) (report : VerifyReport),
      verifyChain (run.chain ++ rest) M expectedCount none = .ok report → report.ok = true →
        verifyChain (run.chain ++ rest) M expectedCount (some c) = .ok report := by
  obtain ⟨hseq, hhash, -, hroot, -⟩ := makeCheckpoint_spec hc
  have hkseq : c.seq = k := by rw [hseq, run.chained.seq_getElem k hk]
  constructor
  · rintro list hljson hinj ⟨report, hreport⟩
    obtain ⟨hacc, -, hanchor, -⟩ := verifyChain_ok_iff.mp hreport
    obtain ⟨hlt, hget⟩ := (hanchor c rfl).getElem hkseq
    have hsame : ∀ x ∈ list, ∀ y ∈ run.chain, recordLinks.hash x = recordLinks.hash y →
        SameContent P x y := by
      intro x hx y hy hxy
      obtain ⟨e, he, rfl⟩ := HonestRun.exists_entry hy
      exact sameContent_of_hash hinj (hacc.records x hx) (run.written e he)
        (fun kd hkd _ => Or.inr ⟨x, hx, hkd⟩) (fun kd hkd => Or.inl ⟨e, he, hkd⟩) hxy
    -- from the anchored hash agreement runs backwards
    have hback := agree_backwards hacc.chained run.chained hsame (fun _ _ h => h.prevHash) k hlt hk
      (by rw [recordLinks_hash, recordLinks_hash, hget, hhash])
    refine ⟨hlt, prefixOf_of_forall fun i hl => ?_⟩
    rw [List.length_take] at hl
    obtain ⟨hih, hic⟩ := hback i (by omega)
    rw [List.getElem_take]
    exact ⟨by omega, hic, hic.sortedMetadata (hljson _ (List.getElem_mem _))
      (hjson _ (List.getElem_mem _)), hih⟩
  · intro rest report hreport hok
    obtain ⟨hacc, hcount, -, root, hmerkle, -, hrep⟩ := verifyChain_ok_iff.mp ⟨hreport, hok⟩
    have hanchor : Anchored (run.chain ++ rest) c := by
      refine anchored_of_getElem hkseq (by rw [List.length_append]; omega) ?_
      rw [List.getElem_append_left hk, hhash]
    refine (verifyChain_ok_iff.mpr ⟨hacc, hcount, ?_, root, hmerkle, ?_, hrep⟩).1
    · rintro c' hc'
      rwa [← Option.some.inj hc']
    · rintro c' hc'
      left
      rw [← Option.some.inj hc', hroot]

/-- The first of two records is anchored. -/
theorem anchored_prefix_sample : ∃ (h : 0 < pairRun.chain.length) (c : Checkpoint),
    makeCheckpoint referenceRuntime pairRun.chain[0] none [] none [] = .ok c ∧
      PrefixOf (SameRecord referenceRuntime) (pairRun.chain.take 1) pairRun.chain := by
  obtain ⟨hlength, hmeta, hnodup⟩ := pairRun_spec
  have hjson : ∀ r ∈ pairRun.chain, r.JsonMetadata := fun r hr => jsonMetadata_of_nil (hmeta r hr)
  have hkept := pairRun.kept referenceRuntime_signaturesVerify keeps_pairRun
  have hlen : 0 < pairRun.chain.length := by omega
  obtain ⟨report, hreport, hok⟩ := verifyChain_plain_iff.mpr hkept.accepted
  obtain ⟨hfix, hextend⟩ := anchored_prefix pairRun hjson 0 hlen none none [] _ rfl
    (sampleLog.keyMaterial none) none
  have haccepted := hextend [] report (by rw [List.append_nil]; exact hreport) hok
  rw [List.append_nil] at haccepted
  refine ⟨hlen, _, rfl,
    (hfix pairRun.chain hjson (injOn_of_nodup hnodup ?_) ⟨report, haccepted, hok⟩).2⟩
  rintro kd (hkd | ⟨l, hl, hkd⟩)
  · exact hkd
  · exact hkept.exists_hashed hl hkd

/-! ### A pinned log -/

/-- Texts that are the hexadecimal form of what they decode to. -/
theorem Decodes.map_hexStr {hs : List PyStr} {bs : List Bytes} (h : Decodes hs bs)
    (hhex : ∀ x ∈ hs, ∃ b, x = hexStr b) : bs.map hexStr = hs := by
  refine List.ext_getElem (by rw [List.length_map, h.length_eq]) fun i hi hi' => ?_
  rw [List.getElem_map]
  rw [List.length_map] at hi
  obtain ⟨b, hb⟩ := hhex _ (List.getElem_mem hi')
  have hdec := h.getElem i hi' hi
  rw [hb, fromHex?_hexStr, Option.some.injEq] at hdec
  rw [hb, ← hdec]

/-- **The root pins the list**, whatever its length, as long as nothing collides. -/
theorem hashes_eq_of_root {hs hs' : List PyStr} {root : PyStr}
    (hhex : ∀ x ∈ hs, ∃ b, x = hexStr b) (hhex' : ∀ x ∈ hs', ∃ b, x = hexStr b)
    (hcoll : NoCollision P (treeInputs P hs ++ treeInputs P hs'))
    (h : merkleRoot P hs = .ok root) (h' : merkleRoot P hs' = .ok root) : hs = hs' := by
  obtain ⟨bs, hbs⟩ := exists_decodes (isSome_of_hexStr hhex)
  obtain ⟨bs', hbs'⟩ := exists_decodes (isSome_of_hexStr hhex')
  obtain rfl := decoded_eq_of_root hbs hbs' hcoll h h'
  rw [← hbs.map_hexStr hhex, hbs'.map_hexStr hhex']

/-- Hashes that were computed are hexadecimal. -/
theorem HonestRun.hash_hex (run : HonestRun P) :
    ∀ x ∈ run.chain.map AuditRecord.hash, ∃ b, x = hexStr b := by
  intro x hx
  obtain ⟨r, hr, rfl⟩ := List.mem_map.mp hx
  obtain ⟨e, he, rfl⟩ := HonestRun.exists_entry hr
  obtain ⟨data, -, hhash⟩ := (run.written e he).hashed
  exact ⟨_, hhash⟩

/-- The checkpoint of a log stands at its last record. -/
theorem HonestRun.checkpoint_spec {run : HonestRun P} {c : Checkpoint}
    (hc : (World.checkpoint run.world).1 = .ok c) : ∃ k, ∃ hk : k < run.chain.length,
      k + 1 = run.chain.length ∧ c.seq = k ∧ c.hash = (run.chain[k]).hash ∧
        merkleRoot P (run.chain.map AuditRecord.hash) = .ok c.merkleRoot := by
  obtain ⟨r, root, hlast, hroot, hmade⟩ := World.checkpoint_spec run.history.tailOk hc
  have hmem : r ∈ run.chain := List.mem_of_getLast? hlast
  have hpos : 0 < run.chain.length := List.length_pos_of_mem hmem
  have hk : run.chain.length - 1 < run.chain.length := by omega
  have hget : run.chain[run.chain.length - 1] = r := by
    have h : run.chain.getLast? = some r := hlast
    rwa [List.getLast?_eq_getElem?, List.getElem?_eq_getElem hk, Option.some.injEq] at h
  refine ⟨run.chain.length - 1, hk, by omega, ?_, ?_, ?_⟩
  · rw [hmade.seq, ← hget, run.chained.seq_getElem _ hk]
  · rw [hget, hmade.hash]
  · rw [hmade.merkleRoot]
    exact hroot

/-- **A checkpoint with a root pins the whole log.**  What is accepted with the
checkpoint of a log is what is accepted without it and has the record hashes of the
log. -/
theorem checkpoint_pins_log (run : HonestRun P) (c : Checkpoint)
    (hc : (World.checkpoint run.world).1 = .ok c) (list : List AuditRecord) (M : KeyMaterial P)
    (expectedCount : Option ℤ)
    (hcoll : NoCollision P (treeInputs P (list.map AuditRecord.hash)
      ++ treeInputs P (run.chain.map AuditRecord.hash))) :
    c.seq + 1 = run.chain.length ∧
      ((∃ report, verifyChain list M expectedCount (some c) = .ok report ∧ report.ok = true) ↔
        (∃ report, verifyChain list M expectedCount none = .ok report ∧ report.ok = true) ∧
          list.map AuditRecord.hash = run.chain.map AuditRecord.hash) := by
  obtain ⟨k, hk, hlen, hseq, hhash, hroot⟩ := HonestRun.checkpoint_spec hc
  refine ⟨by rw [hseq, ← hlen]; rfl, ?_⟩
  constructor
  · rintro ⟨report, hreport⟩
    obtain ⟨hacc, hcount, -, root, hroot', hcp, hrep⟩ := verifyChain_ok_iff.mp hreport
    refine ⟨⟨report, verifyChain_ok_iff.mpr
      ⟨hacc, hcount, by simp, root, hroot', by simp, hrep⟩⟩, ?_⟩
    rw [← (hcp c rfl).resolve_left (merkleRoot_ne_nil hroot)] at hroot'
    exact hashes_eq_of_root hacc.hash_hex run.hash_hex hcoll hroot' hroot
  · rintro ⟨⟨report, hreport⟩, hsame⟩
    obtain ⟨hacc, hcount, -, root, hroot', -, hrep⟩ := verifyChain_ok_iff.mp hreport
    -- the same hashes put the anchored one in the same place
    have hlt : k < list.length := by
      have h := congrArg List.length hsame
      rw [List.length_map, List.length_map] at h
      omega
    have hanchor : Anchored list c := by
      refine anchored_of_getElem hseq hlt ?_
      have h : (list.map AuditRecord.hash)[k]? = (run.chain.map AuditRecord.hash)[k]? := by
        rw [hsame]
      rw [List.getElem?_map, List.getElem?_map, List.getElem?_eq_getElem hlt,
        List.getElem?_eq_getElem hk] at h
      rw [hhash]
      exact Option.some.inj h
    rw [hsame] at hroot'
    refine ⟨report, verifyChain_ok_iff.mpr ⟨hacc, hcount, ?_, root, by rwa [hsame], ?_, hrep⟩⟩
    · rintro c' hc'
      rwa [← Option.some.inj hc']
    · rintro c' hc'
      rw [← Option.some.inj hc']
      exact Or.inr (Except.ok.inj (hroot.symm.trans hroot'))

theorem checkpoint_pins_log_sample : ∃ c, (World.checkpoint pairRun.world).1 = .ok c ∧
    ∃ report, verifyChain pairRun.chain (sampleLog.keyMaterial none) none (some c) = .ok report ∧
      report.ok = true := by
  have hsome : (World.checkpoint pairRun.world).1.toOption.isSome = true := by decide +kernel
  have hnodup : ((treeInputs referenceRuntime (pairRun.chain.map AuditRecord.hash)
      ++ treeInputs referenceRuntime (pairRun.chain.map AuditRecord.hash)).dedup.map
        referenceRuntime.sha256).Nodup := by decide +kernel
  cases hc : (World.checkpoint pairRun.world).1 with
  | error e =>
    rw [hc] at hsome
    cases hsome
  | ok c =>
    obtain ⟨-, hiff⟩ := checkpoint_pins_log pairRun c hc pairRun.chain
      (sampleLog.keyMaterial none) none (noCollision_of_nodup hnodup)
    exact ⟨c, rfl, hiff.mpr ⟨verifyChain_plain_iff.mpr accepted_pairRun, rfl⟩⟩

end AuditChain
