/-
AuditChain/Inclusion.lean

What an inclusion proof proves.

`verify_iff` is the exact acceptance condition against the root of a list of
record hashes: a proof is accepted when its path is that of some position `i`,
and the turns to `seq` in a log of `size` records are the turns to `i` in the
list.  At the right size the turns determine the position, so that

    verify_merkleRoot_iff    with the size known, a proof is exactly the prover's

At another size they need not.  The root does not commit to the size, and

    verify_pins_iff          a proof that verifies pins (seq, size) unless it is a
                             genuine one relabelled along equal turns
-/
import AuditChain.MerkleTree
import AuditChain.Reference

namespace AuditChain

open Python HashTree

variable (P : Runtime)

/-! ### What is hashed -/

/-- The byte strings hashed for the root of a list of record hashes. -/
def treeInputs (hs : List PyStr) : List Bytes :=
  match hs.mapM fromHex? with
  | some bs => if h : bs ≠ [] then (treeOf bs h).inputs (scheme P) else [[]]
  | none => []

/-- The byte strings hashed while a proof is folded. -/
def InclusionProof.foldInputs (p : InclusionProof) : List Bytes :=
  match fromHex? p.leaf, p.decoded with
  | some b, some dec => climbInputs (scheme P) b dec
  | _, _ => []

/-- SHA-256 has no collision among these byte strings. -/
def NoCollision (inputs : List Bytes) : Prop := Set.InjOn P.sha256 { x | x ∈ inputs }

/-- The side of a step and what its hash decodes to. -/
def ProofStep.content (step : ProofStep) : PyStr × Option Bytes := (step.side, fromHex? step.hash)

/-- `p` carries the leaf and the path that `merkle_proof` gives for position `i`. -/
def IsProofOf (hs : List PyStr) (i : ℕ) (p : InclusionProof) : Prop :=
  ∃ h q, hs[i]? = some h ∧ merkleProof P hs i = .ok q ∧ fromHex? p.leaf = fromHex? h ∧
    p.path.map ProofStep.content = q.path.map ProofStep.content

variable {P}

theorem treeInputs_eq {hs : List PyStr} {bs : List Bytes} (h : Decodes hs bs) (hbs : bs ≠ []) :
    treeInputs P hs = (treeOf bs hbs).inputs (scheme P) := by
  unfold Decodes at h
  simp only [treeInputs, h, dif_pos hbs]

theorem foldInputs_eq {p : InclusionProof} {b : Bytes} {dec : List (Side × Bytes)}
    (hleaf : fromHex? p.leaf = some b) (hdec : p.decoded = some dec) :
    p.foldInputs P = climbInputs (scheme P) b dec := by
  simp only [InclusionProof.foldInputs, hleaf, hdec]

/-- The strings hashed do not depend on the labels. -/
theorem foldInputs_congr {p q : InclusionProof} (hleaf : p.leaf = q.leaf)
    (hpath : p.path = q.path) : p.foldInputs P = q.foldInputs P := by
  simp only [InclusionProof.foldInputs, InclusionProof.decoded, hleaf, hpath]

theorem NoCollision.mono {xs ys : List Bytes} (h : NoCollision P ys) (hsub : xs ⊆ ys) :
    NoCollision P xs :=
  Set.InjOn.mono hsub h

theorem noCollision_of_nodup {xs : List Bytes} (h : (xs.dedup.map P.sha256).Nodup) :
    NoCollision P xs :=
  fun _ hx _ hy heq =>
    List.inj_on_of_nodup_map h (List.mem_dedup.mpr hx) (List.mem_dedup.mpr hy) heq

/-! ### Paths, up to the spelling of their hashes -/

theorem decodeStep_congr {s t : ProofStep} (h : s.content = t.content) :
    decodeStep s = decodeStep t := by
  obtain ⟨hside, hhash⟩ := Prod.mk.inj h
  simp only [decodeStep, hside, hhash]

theorem mapM_decodeStep_congr : ∀ {ss ts : List ProofStep},
    ss.map ProofStep.content = ts.map ProofStep.content → ss.mapM decodeStep = ts.mapM decodeStep
  | [], [], _ => rfl
  | s :: ss, t :: ts, h => by
    obtain ⟨hhead, htail⟩ := List.cons.inj h
    simp only [List.mapM_cons, decodeStep_congr hhead, mapM_decodeStep_congr htail]

/-- What a path decodes to determines its content. -/
theorem map_content_of_mapM {ss : List ProofStep} {dec : List (Side × Bytes)}
    (h : ss.mapM decodeStep = some dec) :
    ss.map ProofStep.content = dec.map fun sx => (sideText sx.1, some sx.2) := by
  rw [← List.forall₂_eq_eq_eq, List.forall₂_map_left_iff, List.forall₂_map_right_iff]
  refine (mapM_eq_some.mp h).imp fun step sx hstep => ?_
  obtain ⟨hside, hhash⟩ := decodeStep_eq_some.mp hstep
  rw [ProofStep.content, hside, hhash]

/-! ### The acceptance condition -/

section

variable {hs : List PyStr} {bs : List Bytes} (h : Decodes hs bs) (hbs : bs ≠ [])

include h

/-- A proof of position `i` folds to the root wherever the turns are those of `i`. -/
theorem fold_of_isProofOf {p : InclusionProof} {i : ℕ} (hi : i < hs.length)
    (hseq : 0 ≤ p.seq ∧ p.seq < p.size)
    (hturns : turns splitter i hs.length = turns splitter p.seq.toNat p.size.toNat)
    (hp : IsProofOf P hs i p) : p.fold P = .ok ((treeOf bs hbs).root (scheme P)).hex := by
  have hi' : i < bs.length := by rw [h.length_eq]; exact hi
  obtain ⟨s, q, hs', hq, hleaf, hpath⟩ := hp
  obtain ⟨ds, hopen, hproof⟩ := merkleProof_eq (P := P) h hbs hi hi'
  rw [hproof] at hq
  obtain rfl := Except.ok.inj hq
  rw [List.getElem?_eq_getElem hi, Option.some.injEq] at hs'
  rw [← hs', h.getElem i hi hi'] at hleaf
  -- the path of `p` decodes to what the prover's path decodes to
  have hdec : p.decoded = some ((turns splitter i hs.length).zip (ds.map Subtype.val)) := by
    rw [InclusionProof.decoded, ← mapM_decodeStep_siblings]
    apply mapM_decodeStep_congr
    rw [List.map_reverse, hpath, ← List.map_reverse, List.reverse_reverse]
  have hlen : (turns splitter i hs.length).length ≤ (ds.map Subtype.val).length := by
    rw [List.length_map, HTree.length_openAt _ _ _ hopen]
  refine fold_eq_ok_iff.mpr ⟨hseq.1, hseq.2, bs[i], _, hleaf, hdec, ?_, ?_⟩
  · rw [List.map_fst_zip hlen, hturns]
  · exact congrArg Digest.hex (climb_openAt (scheme P) _ _ hopen).symm

/-- A proof that folds to the root is a proof of some position with the same turns. -/
theorem isProofOf_of_fold {p : InclusionProof}
    (hcoll : NoCollision P (treeInputs P hs ++ p.foldInputs P))
    (hfold : p.fold P = .ok ((treeOf bs hbs).root (scheme P)).hex) :
    (0 ≤ p.seq ∧ p.seq < p.size) ∧ ∃ i, i < hs.length ∧
      turns splitter i hs.length = turns splitter p.seq.toNat p.size.toNat ∧
        IsProofOf P hs i p := by
  obtain ⟨h0, h1, b, dec, hleaf, hdec, hturns, hroot⟩ := fold_eq_ok_iff.mp hfold
  rw [treeInputs_eq h hbs, foldInputs_eq hleaf hdec] at hcoll
  obtain ⟨ds, hopen, hsib⟩ := openAt_of_climb (scheme P) b (treeOf bs hbs) dec
    (Set.InjOn.mono (fun x hx => List.mem_append.mpr hx) hcoll) (Digest.hex_inj hroot).symm
  -- so it is the path of a position, with the siblings of the prover
  obtain ⟨i, hi', hti, rfl⟩ := turns_of_openAt splitter (scheme P) bs hbs _ hopen
  have hlen := h.length_eq
  have hi : i < hs.length := by omega
  rw [hlen] at hti
  refine ⟨⟨h0, h1⟩, i, hi, by rw [← hti, hturns], hs[i], ?_⟩
  obtain ⟨ds', hopen', hproof⟩ := merkleProof_eq (P := P) h hbs hi hi'
  rw [hti, hopen', Option.some.injEq, Prod.mk.injEq] at hopen
  obtain ⟨-, rfl⟩ := hopen
  refine ⟨_, List.getElem?_eq_getElem hi, hproof, by rw [hleaf, h.getElem i hi hi'], ?_⟩
  have hzip : (turns splitter i hs.length).zip (ds'.map Subtype.val) = dec := by
    rw [← hti, show ds'.map Subtype.val = dec.map Prod.snd from hsib.symm]
    exact (List.zip_of_prod rfl rfl).symm
  have hsteps := mapM_decodeStep_siblings (turns splitter i hs.length) ds'
  rw [hzip] at hsteps
  have hcontent := map_content_of_mapM hdec
  rw [← map_content_of_mapM hsteps, List.map_reverse, List.reverse_eq_iff, ← List.map_reverse]
    at hcontent
  exact hcontent

/-- Every position has a proof, which carries the root and verifies. -/
theorem exists_merkleProof {i : ℕ} (hi : i < hs.length) : ∃ q, merkleProof P hs i = .ok q ∧
    q.seq = i ∧ q.size = hs.length ∧ q.root = ((treeOf bs hbs).root (scheme P)).hex ∧
      q.verify P (some q.root) = .ok true := by
  obtain ⟨ds, -, hproof⟩ := merkleProof_eq (P := P) h hbs hi (by rw [h.length_eq]; exact hi)
  refine ⟨_, hproof, rfl, rfl, rfl, ?_⟩
  rw [verify_eq_true_iff, Digest.lower_hex]
  refine fold_of_isProofOf h hbs hi ⟨Int.natCast_nonneg i, Int.ofNat_lt.mpr hi⟩ ?_ ?_
  · simp only [Int.toNat_natCast]
  · exact ⟨hs[i], _, List.getElem?_eq_getElem hi, hproof, rfl, rfl⟩

end

/-- **When a proof is accepted**: it is the proof of a position whose turns are
those of `(seq, size)`. -/
theorem verify_iff {hs : List PyStr} {bs : List Bytes} (h : Decodes hs bs) (hbs : bs ≠ [])
    (p : InclusionProof) (hcoll : NoCollision P (treeInputs P hs ++ p.foldInputs P)) :
    p.verify P (some ((treeOf bs hbs).root (scheme P)).hex) = .ok true ↔
      (0 ≤ p.seq ∧ p.seq < p.size) ∧ ∃ i, i < hs.length ∧
        turns splitter i hs.length = turns splitter p.seq.toNat p.size.toNat ∧
          IsProofOf P hs i p := by
  rw [verify_eq_true_iff, Digest.lower_hex]
  constructor
  · exact isProofOf_of_fold h hbs hcoll
  · rintro ⟨hseq, i, hi, hturns, hp⟩
    exact fold_of_isProofOf h hbs hi hseq hturns hp

/-! ### At a known size -/

/-- **Completeness and soundness at a known size.**  The root of a non-empty list
exists and every position has a proof that carries it and verifies; a proof whose
size is that of the list verifies exactly when it is the proof of its position. -/
theorem verify_merkleRoot_iff (hs : List PyStr) (hne : hs ≠ [])
    (hhex : ∀ x ∈ hs, (fromHex? x).isSome = true) :
    ∃ root, merkleRoot P hs = .ok root ∧
      (∀ seq : ℤ, 0 ≤ seq → seq < hs.length → ∃ q, merkleProof P hs seq = .ok q ∧
        q.root = root ∧ q.verify P (some root) = .ok true) ∧
      ∀ p : InclusionProof, p.size = hs.length →
        (0 ≤ p.seq ∧ p.seq < hs.length ∧ IsProofOf P hs p.seq.toNat p →
          p.verify P (some root) = .ok true) ∧
        (NoCollision P (treeInputs P hs ++ p.foldInputs P) →
          p.verify P (some root) = .ok true →
            0 ≤ p.seq ∧ p.seq < hs.length ∧ IsProofOf P hs p.seq.toNat p) := by
  obtain ⟨bs, h⟩ := exists_decodes hhex
  have hbs := h.ne_nil hne
  refine ⟨_, merkleRoot_eq h hbs, ?_, ?_⟩
  · intro seq h0 h1
    obtain ⟨i, rfl⟩ := Int.eq_ofNat_of_zero_le h0
    obtain ⟨q, hq, -, -, hroot, hverify⟩ := exists_merkleProof (P := P) h hbs (Int.ofNat_lt.mp h1)
    exact ⟨q, hq, hroot, hroot ▸ hverify⟩
  · intro p hsize
    have htoNat : p.size.toNat = hs.length := by omega
    constructor
    · rintro ⟨h0, h1, hp⟩
      rw [verify_eq_true_iff, Digest.lower_hex]
      exact fold_of_isProofOf h hbs (by omega) ⟨h0, by omega⟩ (by rw [htoNat]) hp
    · intro hcoll hverify
      obtain ⟨⟨h0, h1⟩, i, hi, hturns, hp⟩ := (verify_iff h hbs p hcoll).mp hverify
      rw [htoNat] at hturns
      have hpos : i = p.seq.toNat := turns_inj splitter hi (by omega) hturns
      exact ⟨h0, by omega, hpos ▸ hp⟩

/-! ### A log of two records -/

/-- Two record hashes. -/
def twoHashes : List PyStr := [List.replicate 64 (ch '1'), List.replicate 64 (ch '2')]

/-- The Merkle root of the two. -/
def twoRoot : PyStr := lit "cc15b132263fd4fd2748c0e7cb9e1c4ad0afe70fcf9382ee644c4da8af0286a5"

/-- The proof of the second record, labelled with a position and a size. -/
def secondProof (seq size : ℤ) : InclusionProof where
  seq := seq
  size := size
  leaf := List.replicate 64 (ch '2')
  root := twoRoot
  path :=
    [⟨lit "left", lit "4635e1fa62a599a7880a8d14a56f720a1d40f6e5448ab5a5e39bedc8bd87fa8e"⟩]

theorem twoHashes_hex : ∀ x ∈ twoHashes, (fromHex? x).isSome = true := by decide +kernel

theorem merkleRoot_twoHashes : merkleRoot referenceRuntime twoHashes = .ok twoRoot := by
  decide +kernel

theorem noCollision_secondProof (seq size : ℤ) : NoCollision referenceRuntime
    (treeInputs referenceRuntime twoHashes
      ++ (secondProof seq size).foldInputs referenceRuntime) := by
  have hnodup : ((treeInputs referenceRuntime twoHashes ++ (secondProof 1 2).foldInputs
      referenceRuntime).dedup.map referenceRuntime.sha256).Nodup := by
    decide +kernel
  have hfold : (secondProof seq size).foldInputs referenceRuntime
      = (secondProof 1 2).foldInputs referenceRuntime := foldInputs_congr rfl rfl
  rw [hfold]
  exact noCollision_of_nodup hnodup

theorem isProofOf_secondProof : IsProofOf referenceRuntime twoHashes 1 (secondProof 1 2) := by
  obtain ⟨root, hroot, -, hiff⟩ :=
    verify_merkleRoot_iff (P := referenceRuntime) twoHashes (by decide) twoHashes_hex
  obtain rfl := Except.ok.inj (hroot.symm.trans merkleRoot_twoHashes)
  exact ((hiff (secondProof 1 2) rfl).2 (noCollision_secondProof 1 2) (by decide +kernel)).2.2

/-! ### At an unknown size -/

/-- What a proof is said to commit to: the size of the log, and the record hash at
its position. -/
def Pins (hs : List PyStr) (p : InclusionProof) : Prop :=
  p.size = hs.length ∧ 0 ≤ p.seq ∧
    ∃ h, hs[p.seq.toNat]? = some h ∧ fromHex? p.leaf = fromHex? h

variable (P) in
/-- `p` is a proof of a position of `hs`, presented under another size at a position
that is reached by the same turns. -/
def Relabelled (hs : List PyStr) (p : InclusionProof) : Prop :=
  p.size ≠ hs.length ∧ (0 ≤ p.seq ∧ p.seq < p.size) ∧ ∃ i, i < hs.length ∧
    turns splitter i hs.length = turns splitter p.seq.toNat p.size.toNat ∧ IsProofOf P hs i p

/-- **What a bare root pins**: acceptance commits to size and position exactly for
the proofs that are not relabelled ones. -/
theorem verify_pins_iff (hs : List PyStr) (hne : hs ≠ [])
    (hhex : ∀ x ∈ hs, (fromHex? x).isSome = true) (p : InclusionProof)
    (hcoll : NoCollision P (treeInputs P hs ++ p.foldInputs P)) :
    ∃ root, merkleRoot P hs = .ok root ∧
      ((p.verify P (some root) = .ok true → Pins hs p) ↔ ¬Relabelled P hs p) := by
  obtain ⟨bs, h⟩ := exists_decodes hhex
  have hbs := h.ne_nil hne
  refine ⟨_, merkleRoot_eq h hbs, ?_⟩
  rw [verify_iff h hbs p hcoll]
  constructor
  · rintro hpins ⟨hsize, hseq, i, hi, hturns, hp⟩
    exact hsize (hpins ⟨hseq, i, hi, hturns, hp⟩).1
  · rintro hrel ⟨⟨h0, h1⟩, i, hi, hturns, hp⟩
    have hsize : p.size = hs.length := by
      by_contra hsize
      exact hrel ⟨hsize, ⟨h0, h1⟩, i, hi, hturns, hp⟩
    have htoNat : p.size.toNat = hs.length := by omega
    rw [htoNat] at hturns
    -- at one size the turns determine the position
    have hpos : i = p.seq.toNat := turns_inj splitter hi (by omega) hturns
    obtain ⟨x, q, hx, -, hleaf, -⟩ := hp
    exact ⟨hsize, h0, x, hpos ▸ hx, hleaf⟩

/-- The proof of the second of two records is accepted as one of the third of three. -/
theorem verify_pins_counterexample :
    ¬∀ (P : Runtime) (hs : List PyStr) (p : InclusionProof), hs ≠ [] →
      (∀ x ∈ hs, (fromHex? x).isSome = true) →
        NoCollision P (treeInputs P hs ++ p.foldInputs P) →
          ∀ root, merkleRoot P hs = .ok root → p.verify P (some root) = .ok true → Pins hs p := by
  intro hclaim
  have hverify : (secondProof 2 3).verify referenceRuntime (some twoRoot) = .ok true := by
    decide +kernel
  have hpins := hclaim referenceRuntime twoHashes (secondProof 2 3) (by decide) twoHashes_hex
    (noCollision_secondProof 2 3) twoRoot merkleRoot_twoHashes hverify
  exact absurd hpins.1 (by decide)

theorem relabelled_secondProof : Relabelled referenceRuntime twoHashes (secondProof 2 3) := by
  obtain ⟨root, hroot, hiff⟩ := verify_pins_iff (P := referenceRuntime) twoHashes (by decide)
    twoHashes_hex (secondProof 2 3) (noCollision_secondProof 2 3)
  obtain rfl := Except.ok.inj (hroot.symm.trans merkleRoot_twoHashes)
  by_contra hrel
  have hpins := hiff.mpr hrel (by decide +kernel)
  exact absurd hpins.1 (by decide)

/-- The proof that is made for the second record says what it should. -/
example : merkleProof referenceRuntime twoHashes 1 = .ok (secondProof 1 2) := by decide +kernel

end AuditChain
