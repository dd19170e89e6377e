/-
AuditChain/MerkleRoots.lean

The Merkle functions against their documentation.

The module docstring describes the tree bottom-up: leaves in pairs, an odd node
promoted.  The code builds it top-down.  And `_fold` walks a path from the root
to the leaf, although a path is documented to be read from the leaf up.

    merkleRoot_eq_levelRoot    both directions give one tree
    merkleRoot_inj             and its root determines the list
    folds_of_room              `fold` is the plain fold of the path, on exactly the
                               paths with the turns of (seq, size)
    fold_spec                  as long as the stack has room for the turns
-/
import AuditChain.Inclusion

namespace AuditChain

open Python HashTree

/-! ### Level by level -/

theorem splitLoop_eq : ∀ (fuel j k n : ℕ), j ≤ k → k ≤ j + fuel → 2 ^ k < n → n ≤ 2 ^ (k + 1) →
    splitLoop fuel (2 ^ j) n = 2 ^ k
  | 0, j, k, _, hj, hfuel, _, _ => by
    obtain rfl : j = k := by omega
    rfl
  | fuel + 1, j, k, n, hj, hfuel, hlo, hhi => by
    rw [splitLoop, ← Nat.pow_succ]
    rcases Nat.eq_or_lt_of_le hj with rfl | hlt
    · rw [if_neg (by omega)]
    · -- still below: the loop doubles
      have hstep : 2 ^ (j + 1) ≤ 2 ^ k := Nat.pow_le_pow_right (by omega) hlt
      rw [if_pos (by omega)]
      exact splitLoop_eq fuel (j + 1) k n hlt (by omega) hlo hhi

/-- `_split` finds the largest power of two strictly below the size. -/
theorem splitter_binary : splitter.Binary := by
  intro k n hlo hhi
  have hk : k < n := (Nat.lt_two_pow_self).trans hlo
  exact splitLoop_eq n 0 k n (by omega) (by omega) hlo hhi

variable (P : Runtime)

/-- The root as the documentation describes it: level by level from the leaf hashes. -/
def levelRoot (recordHashes : List PyStr) : Except PyError PyStr := do
  let leaves ← recordHashes.mapM (leafHash P)
  match bottomUp (joinDigests P) leaves with
  | some root => return root.hex
  | none => return EMPTY_ROOT P

/-- **One tree**: splitting from the top and pairing from the bottom give the same root. -/
theorem merkleRoot_eq_levelRoot (recordHashes : List PyStr) :
    merkleRoot P recordHashes = levelRoot P recordHashes := by
  unfold merkleRoot levelRoot
  congr 1
  funext leaves
  by_cases hleaves : leaves = []
  · rw [hleaves, bottomUp]
    rfl
  · have hne : leaves.isEmpty = false := by simpa using hleaves
    rw [hne, if_neg Bool.false_ne_true, subtreeRoot_eq_eval leaves hleaves,
      bottomUp_eq _ splitter_binary leaves hleaves]
    rfl

/-! ### Equal roots -/

variable {P}

theorem merkleRoot_nil : merkleRoot P [] = .ok (EMPTY_ROOT P) := rfl

/-- Every string hashed for a tree has a prefix; the empty root is the hash of no bytes. -/
theorem inputs_ne_nil {t : HTree Bytes} {b : Bytes} (hb : b ∈ t.inputs (scheme P)) : b ≠ [] := by
  induction t with
  | leaf a =>
    rw [List.mem_singleton.mp hb]
    exact List.cons_ne_nil _ _
  | node l r ihl ihr =>
    rcases List.mem_cons.mp hb with rfl | hb
    · exact List.cons_ne_nil _ _
    · rcases List.mem_append.mp hb with hb | hb
      · exact ihl hb
      · exact ihr hb

/-- No tree has the root of the empty batch. -/
theorem root_ne_empty {t : HTree Bytes} (hcoll : NoCollision P ([] :: t.inputs (scheme P))) :
    P.sha256 [] ≠ t.root (scheme P) := by
  intro h
  rw [t.root_eq_hash] at h
  have htop := hcoll List.mem_cons_self (List.mem_cons_of_mem _ (t.topPre_mem (scheme P))) h
  exact inputs_ne_nil (t.topPre_mem (scheme P)) htop.symm

/-- Equal roots come from equal decoded lists. -/
theorem decoded_eq_of_root {hs hs' : List PyStr} {bs bs' : List Bytes} {root : PyStr}
    (h : Decodes hs bs) (h' : Decodes hs' bs')
    (hcoll : NoCollision P (treeInputs P hs ++ treeInputs P hs'))
    (hroot : merkleRoot P hs = .ok root) (hroot' : merkleRoot P hs' = .ok root) : bs = bs' := by
  have hnil : ∀ {xs : List PyStr}, Decodes xs [] → xs = [] := fun hxs =>
    List.length_eq_zero_iff.mp hxs.length_eq.symm
  by_cases hbs : bs = []
  · subst hbs
    by_cases hbs' : bs' = []
    · exact hbs'.symm
    · obtain rfl := hnil h
      rw [treeInputs_eq h' hbs'] at hcoll
      rw [merkleRoot_eq h' hbs', ← hroot, merkleRoot_nil] at hroot'
      exact absurd (Digest.hex_inj (Except.ok.inj hroot')).symm (root_ne_empty hcoll)
  · by_cases hbs' : bs' = []
    · subst hbs'
      obtain rfl := hnil h'
      rw [treeInputs_eq h hbs] at hcoll
      rw [merkleRoot_eq h hbs, ← hroot', merkleRoot_nil] at hroot
      refine absurd (Digest.hex_inj (Except.ok.inj hroot)).symm (root_ne_empty (hcoll.mono ?_))
      intro b hb
      rw [List.mem_append]
      exact (List.mem_cons.mp hb).symm.imp id fun hb => List.mem_singleton.mpr hb
    · rw [treeInputs_eq h hbs, treeInputs_eq h' hbs'] at hcoll
      rw [merkleRoot_eq h hbs, ← hroot', merkleRoot_eq h' hbs'] at hroot
      -- equal roots, equal trees; the list is read off the leaves
      have htree : treeOf bs hbs = treeOf bs' hbs' :=
        root_inj (scheme P) _ _ (Set.InjOn.mono (fun b hb => List.mem_append.mpr hb) hcoll)
          (Digest.hex_inj (Except.ok.inj hroot))
      rw [← leaves_ofList splitter bs hbs, ← leaves_ofList splitter bs' hbs']
      exact congrArg HTree.leaves htree

/-- The root of valid hex texts exists. -/
theorem exists_merkleRoot {hs : List PyStr} {bs : List Bytes} (h : Decodes hs bs) :
    ∃ root, merkleRoot P hs = .ok root := by
  by_cases hbs : bs = []
  · subst hbs
    obtain rfl : hs = [] := List.length_eq_zero_iff.mp h.length_eq.symm
    exact ⟨_, merkleRoot_nil⟩
  · exact ⟨_, merkleRoot_eq h hbs⟩

theorem Decodes.map_eq {hs : List PyStr} {bs : List Bytes} (h : Decodes hs bs) :
    hs.map fromHex? = bs.map some := by
  rw [← List.forall₂_eq_eq_eq, List.forall₂_map_left_iff, List.forall₂_map_right_iff]
  exact mapM_eq_some.mp h

/-- **The root determines the list**: two lists of hex texts with one root have one
length and decode to the same byte strings in the same order. -/
theorem merkleRoot_inj (hs hs' : List PyStr) (hhex : ∀ x ∈ hs, (fromHex? x).isSome = true)
    (hhex' : ∀ x ∈ hs', (fromHex? x).isSome = true)
    (hcoll : NoCollision P (treeInputs P hs ++ treeInputs P hs')) :
    ∃ root root', merkleRoot P hs = .ok root ∧ merkleRoot P hs' = .ok root' ∧
      (root = root' → hs.length = hs'.length ∧ hs.map fromHex? = hs'.map fromHex?) := by
  obtain ⟨bs, h⟩ := exists_decodes hhex
  obtain ⟨bs', h'⟩ := exists_decodes hhex'
  obtain ⟨root, hroot⟩ := exists_merkleRoot (P := P) h
  obtain ⟨root', hroot'⟩ := exists_merkleRoot (P := P) h'
  refine ⟨root, root', hroot, hroot', ?_⟩
  rintro rfl
  obtain rfl := decoded_eq_of_root h h' hcoll hroot hroot'
  exact ⟨by rw [← h.length_eq, h'.length_eq], by rw [h.map_eq, h'.map_eq]⟩

/-- Duplicating the last of two records changes the root. -/
theorem merkleRoot_duplicated : merkleRoot referenceRuntime twoHashes
    ≠ merkleRoot referenceRuntime (twoHashes ++ [List.replicate 64 (ch '2')]) := by
  have hnodup : ((treeInputs referenceRuntime twoHashes ++ treeInputs referenceRuntime
      (twoHashes ++ [List.replicate 64 (ch '2')])).dedup.map referenceRuntime.sha256).Nodup := by
    decide +kernel
  obtain ⟨root, root', hroot, hroot', hinj⟩ := merkleRoot_inj twoHashes
    (twoHashes ++ [List.replicate 64 (ch '2')]) twoHashes_hex (by decide +kernel)
    (noCollision_of_nodup hnodup)
  intro heq
  rw [hroot, hroot'] at heq
  exact absurd (hinj (Except.ok.inj heq)).1 (by decide)

/-! ### The plain fold -/

variable (P) in
/-- Combine a running hash with the next sibling of a path, which goes to its stated side. -/
def combineStep (d : Digest) (step : ProofStep) : Except PyError Digest := do
  let sibling ← fromHex step.hash
  if step.side = lit "left" then return nodeHash P sibling d.val
  else return nodeHash P d.val sibling

variable (P) in
/-- The path from the leaf up, with no look at `seq` and `size`. -/
def plainFold (p : InclusionProof) : Except PyError PyStr := do
  let leaf ← leafHash P p.leaf
  let root ← p.path.foldlM (combineStep P) leaf
  return root.hex

/-- A path read from the leaf up climbs as one read from the root down. -/
theorem foldlM_combineStep {b : Bytes} : ∀ (steps : List ProofStep) {dec : List (Side × Bytes)},
    steps.mapM decodeStep = some dec →
      steps.reverse.foldlM (combineStep P) (leafDigest P b) = .ok (climb (scheme P) b dec)
  | [], dec, h => by
    obtain rfl : [] = dec := Option.some.inj h
    rfl
  | step :: steps, dec, h => by
    simp only [List.mapM_cons, Option.bind_eq_bind, Option.bind_eq_some_iff, Option.pure_def,
      Option.some.injEq] at h
    obtain ⟨⟨s, x⟩, hstep, dec', hdec', rfl⟩ := h
    obtain ⟨hside, hhash⟩ := decodeStep_eq_some.mp hstep
    have hx : fromHex step.hash = .ok x := by rw [fromHex, hhash]
    have hrl : lit "right" ≠ lit "left" := by decide
    rw [List.reverse_cons, List.foldlM_append, foldlM_combineStep steps hdec', ok_bind,
      List.foldlM_cons, combineStep, hx, hside, climb_cons]
    cases s with
    | left => simp [sideText, joinStep]
    | right => simp [sideText, joinStep, hrl]

/-- A path decodes when its hashes do and its sides are the words of the turns. -/
theorem decoded_turns_iff {p : InclusionProof} {ts : List Side} :
    (∃ dec, p.decoded = some dec ∧ dec.map Prod.fst = ts) ↔
      (∀ step ∈ p.path, (fromHex? step.hash).isSome = true) ∧
        p.path.reverse.map ProofStep.side = ts.map sideText := by
  have hreverse : ∀ step, step ∈ p.path ↔ step ∈ p.path.reverse := fun _ => List.mem_reverse.symm
  unfold InclusionProof.decoded
  simp only [hreverse]
  generalize p.path.reverse = steps
  induction steps generalizing ts with
  | nil => cases ts <;> simp
  | cons step steps ih =>
    constructor
    · rintro ⟨dec, hdec, rfl⟩
      simp only [List.mapM_cons, Option.bind_eq_bind, Option.bind_eq_some_iff, Option.pure_def,
        Option.some.injEq] at hdec
      obtain ⟨⟨s, x⟩, hstep, dec', hdec', rfl⟩ := hdec
      obtain ⟨hside, hhash⟩ := decodeStep_eq_some.mp hstep
      obtain ⟨hhex, hsides⟩ := ih.mp ⟨dec', hdec', rfl⟩
      refine ⟨?_, by rw [List.map_cons, hside, hsides]; rfl⟩
      intro st hst
      rcases List.mem_cons.mp hst with rfl | hst
      · rw [hhash]; rfl
      · exact hhex st hst
    · rintro ⟨hhex, hsides⟩
      cases ts with
      | nil => cases hsides
      | cons t ts =>
        obtain ⟨hside, hsides⟩ := List.cons.inj hsides
        obtain ⟨x, hx⟩ := Option.isSome_iff_exists.mp (hhex step List.mem_cons_self)
        obtain ⟨dec, hdec, hfst⟩ :=
          ih.mpr ⟨fun st hst => hhex st (List.mem_cons_of_mem _ hst), hsides⟩
        have hstep := decodeStep_eq_some.mpr ⟨hside, hx⟩
        exact ⟨(t, x) :: dec, by simp [hstep, hdec], by rw [List.map_cons, hfst]⟩

/-! ### The depth of the walk -/

/-- The walk asks for more than `room` calls inside the first one: the position has more turns
than that, the first `room + 1` steps decode, and those before the last of them lie on the
sides of the turns. -/
def Outruns (room index size : ℕ) (steps : List ProofStep) : Prop :=
  ∃ dec last t, (steps.take (room + 1)).mapM decodeStep = some (dec ++ [last]) ∧
    dec.length = room ∧ dec.map Prod.fst ++ [t] <+: turns splitter index size

/-- Folding the proof gets as far as the walk, and the walk asks for more than there is room. -/
def InclusionProof.TooDeep (room : ℕ) (p : InclusionProof) : Prop :=
  (0 ≤ p.seq ∧ p.seq < p.size) ∧ (fromHex? p.leaf).isSome = true ∧
    Outruns room p.seq.toNat p.size.toNat p.path.reverse

theorem not_outruns_nil (room index size : ℕ) : ¬Outruns room index size [] := by
  rintro ⟨dec, last, t, hdec, -⟩
  have hnil := Option.some.inj hdec
  simp at hnil

theorem not_outruns_one (room index : ℕ) (steps : List ProofStep) :
    ¬Outruns room index 1 steps := by
  rintro ⟨dec, last, t, -, -, hfirst⟩
  rw [turns_of_le_one _ le_rfl, List.prefix_nil] at hfirst
  simp at hfirst

theorem not_outruns_undecodable (room index size : ℕ) {step : ProofStep}
    (steps : List ProofStep) (hstep : decodeStep step = none) :
    ¬Outruns room index size (step :: steps) := by
  rintro ⟨dec, last, t, hdec, -⟩
  rw [List.take_succ_cons, List.mapM_cons, hstep] at hdec
  cases hdec

theorem outruns_zero (index : ℕ) {size : ℕ} {step : ProofStep} (steps : List ProofStep)
    {sx : Side × Bytes} (hsize : 2 ≤ size) (hstep : decodeStep step = some sx) :
    Outruns 0 index size (step :: steps) := by
  refine ⟨[], sx, turnAt index size, by simp [hstep], rfl, ?_⟩
  rw [turns_eq_cons index hsize]
  exact ⟨_, rfl⟩

theorem outruns_succ {room index size : ℕ} {step : ProofStep} {steps : List ProofStep}
    {s : Side} {x : Bytes} (hsize : 2 ≤ size) (hstep : decodeStep step = some (s, x)) :
    Outruns (room + 1) index size (step :: steps) ↔ s = turnAt index size ∧
      Outruns room (halfAt index size).1 (halfAt index size).2 steps := by
  unfold Outruns
  rw [turns_eq_cons index hsize]
  constructor
  · rintro ⟨dec, last, t, hdec, hlen, hfirst⟩
    obtain ⟨sx, dec, rfl⟩ := List.exists_cons_of_length_eq_add_one hlen
    simp only [List.take_succ_cons, List.mapM_cons, hstep, Option.bind_eq_bind,
      Option.bind_some, Option.bind_eq_some_iff, Option.pure_def, Option.some.injEq,
      List.cons_append, List.cons.injEq] at hdec
    obtain ⟨rest, hrest, rfl, rfl⟩ := hdec
    rw [List.map_cons, List.cons_append, List.cons_prefix_cons] at hfirst
    exact ⟨hfirst.1, dec, last, t, hrest, Nat.succ.inj hlen, hfirst.2⟩
  · rintro ⟨hturn, dec, last, t, hdec, hlen, hfirst⟩
    refine ⟨(s, x) :: dec, last, t, by simp [hstep, hdec], by rw [List.length_cons, hlen], ?_⟩
    rw [List.map_cons, List.cons_append, List.cons_prefix_cons]
    exact ⟨hturn, hfirst⟩

/-- **The walk on a stack**: it is the walk with room enough, except where it asks for more
room than there is; there it ends with a `RecursionError`. -/
theorem foldSteps_room (leaf : Digest) : ∀ (steps : List ProofStep) (room index size : ℕ),
    0 < size →
      (Outruns room index size steps →
        foldSteps P index size leaf steps (some room) = .error recursionError) ∧
      (¬Outruns room index size steps →
        foldSteps P index size leaf steps (some room) = foldSteps P index size leaf steps)
  | [], room, index, size, _ =>
    ⟨fun h => absurd h (not_outruns_nil room index size), fun _ => by rw [foldSteps, foldSteps]⟩
  | step :: steps, room, index, size, hpos => by
    by_cases hone : size = 1
    · subst hone
      exact ⟨fun h => absurd h (not_outruns_one room index _), fun _ => by
        rw [foldSteps, foldSteps, if_pos rfl, if_pos rfl]⟩
    have htwo : 2 ≤ size := by omega
    cases hstep : decodeStep step with
    | none =>
      obtain ⟨e, -, hfold⟩ := exists_undecodable (P := P) hstep
      refine ⟨fun h => absurd h (not_outruns_undecodable room index size steps hstep), fun _ => ?_⟩
      rw [hfold _ _ _ _ _ hone, hfold _ _ _ _ _ hone]
    | some sx =>
      obtain ⟨s, x⟩ := sx
      cases room with
      | zero =>
        exact ⟨fun _ => foldSteps_no_room index leaf steps hone hstep,
          fun h => absurd (outruns_zero index steps htwo hstep) h⟩
      | succ room =>
        have hrec := foldSteps_room leaf steps room (halfAt index size).1
          (halfAt index size).2 (halfAt_pos index htwo)
        have hmap : (some (room + 1)).map (· - 1) = some room := rfl
        rw [outruns_succ htwo hstep, foldSteps_cons_room hone hstep (by simp), hmap,
          foldSteps_cons hone hstep]
        by_cases hturn : s = turnAt index size
        · rw [if_pos hturn, if_pos hturn]
          refine ⟨fun h => ?_, fun h => ?_⟩
          · rw [hrec.1 h.2, error_bind]
          · rw [hrec.2 fun hout => h ⟨hturn, hout⟩]
        · rw [if_neg hturn, if_neg hturn]
          exact ⟨fun h => absurd h.1 hturn, fun _ => rfl⟩

/-- The same of `fold`. -/
theorem fold_room (room : ℕ) (p : InclusionProof) :
    (p.TooDeep room → p.fold P (some room) = .error recursionError) ∧
      (¬p.TooDeep room → p.fold P (some room) = p.fold P) := by
  unfold InclusionProof.TooDeep InclusionProof.fold
  by_cases hsize : p.size < 1
  · rw [if_pos hsize, if_pos hsize]
    exact ⟨fun h => by omega, fun _ => rfl⟩
  by_cases hrange : ¬(0 ≤ p.seq ∧ p.seq < p.size)
  · rw [if_neg hsize, if_pos hrange, if_neg hsize, if_pos hrange]
    exact ⟨fun h => absurd h.1 hrange, fun _ => rfl⟩
  rw [if_neg hsize, if_neg hrange, if_neg hsize, if_neg hrange]
  rw [not_not] at hrange
  cases hleaf : fromHex? p.leaf with
  | none =>
    refine ⟨fun h => absurd h.2.1 (by simp), fun _ => ?_⟩
    rw [leafHash, fromHex, hleaf]
    rfl
  | some b =>
    obtain ⟨hdeep, hroom⟩ := foldSteps_room (leafDigest P b) p.path.reverse
      room p.seq.toNat p.size.toNat (by omega)
    rw [leafHash_eq hleaf, ok_bind, ok_bind]
    refine ⟨fun h => ?_, fun h => ?_⟩
    · rw [hdeep h.2.2]
      rfl
    · rw [hroom fun hout => h ⟨hrange, rfl, hout⟩]

/-- A log of at most `2 ^ room` records has no proof that is too deep. -/
theorem not_tooDeep {room : ℕ} {p : InclusionProof} (h : p.size.toNat ≤ 2 ^ room) :
    ¬p.TooDeep room := by
  rintro ⟨-, -, dec, last, t, -, hlen, hfirst⟩
  have hle := hfirst.length_le
  have hturns := length_turns_le splitter_binary room p.seq.toNat p.size.toNat h
  rw [List.length_append, List.length_map, hlen, List.length_singleton] at hle
  omega

/-- So there a stack with `room` is enough. -/
theorem fold_of_size_le {room : ℕ} {p : InclusionProof} (h : p.size.toNat ≤ 2 ^ room) :
    p.fold P (some room) = p.fold P :=
  (fold_room room p).2 (not_tooDeep h)

variable (P) in
/-- What the documentation says of folding a proof, on a stack with `room`.  It returns a value
exactly when position and size fit, the texts are hex and the sides, read from the last step
to the first, are the turns from the root down to the position; else it raises `ValueError`.
The value is that of the plain fold. -/
def FoldsAsDocumented (room : Option ℕ) (p : InclusionProof) : Prop :=
  ((∃ r, p.fold P room = .ok r) ↔
    1 ≤ p.size ∧ (0 ≤ p.seq ∧ p.seq < p.size) ∧ (fromHex? p.leaf).isSome = true ∧
      (∀ step ∈ p.path, (fromHex? step.hash).isSome = true) ∧
        p.path.reverse.map ProofStep.side
          = (turns splitter p.seq.toNat p.size.toNat).map sideText) ∧
    (∀ e, p.fold P room = .error e → e.cls = .valueError) ∧
    ∀ r, p.fold P room = .ok r → plainFold P p = .ok r

/-- With room enough every proof folds as documented. -/
theorem folds_of_room (p : InclusionProof) : FoldsAsDocumented P none p := by
  refine ⟨⟨?_, ?_⟩, ?_, ?_⟩
  · rintro ⟨r, hr⟩
    obtain ⟨h0, h1, b, dec, hleaf, hdec, hturns, -⟩ := fold_eq_ok_iff.mp hr
    obtain ⟨hhex, hsides⟩ := decoded_turns_iff.mp ⟨dec, hdec, hturns⟩
    exact ⟨by omega, ⟨h0, h1⟩, by rw [hleaf]; rfl, hhex, hsides⟩
  · rintro ⟨-, ⟨h0, h1⟩, hleaf, hhex, hsides⟩
    obtain ⟨b, hb⟩ := Option.isSome_iff_exists.mp hleaf
    obtain ⟨dec, hdec, hturns⟩ := decoded_turns_iff.mpr ⟨hhex, hsides⟩
    exact ⟨_, fold_eq_ok_iff.mpr ⟨h0, h1, b, dec, hb, hdec, hturns, rfl⟩⟩
  · intro e he
    exact fold_error_cls he
  · intro r hr
    obtain ⟨-, -, b, dec, hleaf, hdec, -, rfl⟩ := fold_eq_ok_iff.mp hr
    have hclimb := foldlM_combineStep (P := P) (b := b) _ hdec
    rw [List.reverse_reverse] at hclimb
    rw [plainFold, leafHash_eq hleaf, ok_bind, hclimb]
    rfl

/-- A proof that is too deep does not: what it raises is no `ValueError`. -/
theorem not_folds_of_tooDeep {room : ℕ} {p : InclusionProof} (h : p.TooDeep room) :
    ¬FoldsAsDocumented P (some room) p := by
  rintro ⟨-, herror, -⟩
  have hcls := herror _ ((fold_room room p).1 h)
  cases hcls

/-- **Folding a proof** goes as documented unless the walk asks for more calls than the stack
has room for; that is never so for a log of `2 ^ room` records or fewer, where the stack makes
no difference. -/
theorem fold_spec (room : ℕ) (p : InclusionProof) :
    (FoldsAsDocumented P (some room) p ↔ ¬p.TooDeep room) ∧
      (p.size.toNat ≤ 2 ^ room → ¬p.TooDeep room ∧ p.fold P (some room) = p.fold P) := by
  refine ⟨⟨fun h hdeep => not_folds_of_tooDeep hdeep h, fun h => ?_⟩,
    fun hsize => ⟨not_tooDeep hsize, fold_of_size_le hsize⟩⟩
  have hnone := folds_of_room (P := P) p
  unfold FoldsAsDocumented at hnone ⊢
  rwa [(fold_room room p).2 h]

/-- In a log of `2 ^ n` records the way to the first has `n` turns, all of them right. -/
theorem turns_zero_two_pow : ∀ n, turns splitter 0 (2 ^ n) = List.replicate n .right
  | 0 => turns_of_le_one splitter le_rfl
  | n + 1 => by
    have hpow := Nat.one_le_two_pow (n := n)
    have hpoint : splitter.point (2 ^ (n + 1)) = 2 ^ n :=
      splitter_binary n (2 ^ (n + 1)) (Nat.pow_lt_pow_right (by omega) (by omega)) le_rfl
    rw [turns_right splitter (by rw [Nat.pow_succ]; omega) (by rw [hpoint]; omega), hpoint,
      turns_zero_two_pow n, List.replicate_succ]

/-- A proof of the first of `2 ^ n` records, with `n` steps of one hash. -/
def deepProof (n : ℕ) : InclusionProof where
  seq := 0
  size := ((2 ^ n : ℕ) : ℤ)
  leaf := List.replicate 64 (ch '0')
  root := List.replicate 64 (ch '0')
  path := List.replicate n ⟨lit "right", List.replicate 64 (ch '0')⟩

theorem mapM_replicate {step : ProofStep} {sx : Side × Bytes} (h : decodeStep step = some sx) :
    ∀ m, (List.replicate m step).mapM decodeStep = some (List.replicate m sx)
  | 0 => rfl
  | m + 1 => by
    rw [List.replicate_succ, List.mapM_cons, h, mapM_replicate h m]
    rfl

theorem deepProof_tooDeep {room n : ℕ} (h : room < n) : (deepProof n).TooDeep room := by
  have hpow := Nat.one_le_two_pow (n := n)
  have hleaf : (fromHex? (List.replicate 64 (ch '0'))).isSome = true := by decide
  have hstep : decodeStep ⟨lit "right", List.replicate 64 (ch '0')⟩
      = some (.right, List.replicate 32 0) := by decide
  refine ⟨⟨le_rfl, by simp only [deepProof]; omega⟩, hleaf, ?_⟩
  refine ⟨List.replicate room (.right, List.replicate 32 0), (.right, List.replicate 32 0),
    .right, ?_, List.length_replicate, List.replicate (n - (room + 1)) .right, ?_⟩
  · rw [deepProof, List.reverse_replicate, List.take_replicate, Nat.min_eq_left h,
      mapM_replicate hstep, List.replicate_succ']
  · rw [deepProof, Int.toNat_zero, Int.toNat_natCast, turns_zero_two_pow, List.map_replicate,
      ← List.replicate_succ', ← List.replicate_add, Nat.add_sub_cancel' h]

/-- With room for 996 calls inside the first, what Python's default limit of 1000 leaves to a
script, a proof of the first record of a log of `2 ^ 1200` records is not folded as
documented. -/
theorem fold_counterexample :
    ¬FoldsAsDocumented referenceRuntime (some 996) (deepProof 1200) :=
  not_folds_of_tooDeep (deepProof_tooDeep (by omega))

end AuditChain
