/-
AuditChain/ProofLength.lean

How long an inclusion proof is.

`_split` cuts at a power of two, so the left half of a tree is full and the right
one may be much smaller.  All the same no leaf is deeper than the least `d` with
`n ≤ 2 ^ d`, in Python `(n - 1).bit_length()`, and the first leaf is that deep.
The same number bounds the recursions: of the prover over the leaves and of the
verifier over the path.

    length_collect             a path has a step for every turn of its position
    exists_subtreeRootAux,
    exists_collect             that depth is enough for the prover
    foldSteps_append           the verifier looks at no step beyond it
-/
import AuditChain.MerkleRoots
import Mathlib.Data.Nat.Size

namespace AuditChain

open Python HashTree

variable {P : Runtime}

/-- The least exponent of a power of two that reaches `n`. -/
theorem size_pred_le_iff {n : ℕ} (hn : 1 ≤ n) (d : ℕ) : Nat.size (n - 1) ≤ d ↔ n ≤ 2 ^ d := by
  rw [Nat.size_le]
  omega

/-! ### The prover -/

/-- A path has a step for every turn on the way to its position. -/
theorem length_collect (fuel : ℕ) : ∀ (leaves : List Digest) (i : ℕ) {path : List ProofStep},
    leaves ≠ [] → collect P fuel leaves i = .ok path →
      path.length = (turns splitter i leaves.length).length := by
  induction fuel with
  | zero =>
    intro leaves i path _ h
    cases h
  | succ fuel ih =>
    intro leaves i path hne h
    by_cases htwo : 2 ≤ leaves.length
    · have hlt := splitter.lt _ htwo
      rw [collect_succ htwo] at h
      by_cases hi : i < split leaves.length
      · rw [if_pos hi] at h
        obtain ⟨sibling, -, h⟩ := bind_eq_ok.mp h
        obtain ⟨front, hfront, h⟩ := bind_eq_ok.mp h
        have hlen := ih _ i (take_ne_nil splitter htwo) hfront
        rw [List.length_take, Nat.min_eq_left hlt.le] at hlen
        rw [← Except.ok.inj h, turns_right splitter htwo hi, List.length_cons, hlen]
        rfl
      · rw [if_neg hi] at h
        obtain ⟨sibling, -, h⟩ := bind_eq_ok.mp h
        obtain ⟨back, hback, h⟩ := bind_eq_ok.mp h
        have hlen := ih _ _ (drop_ne_nil splitter htwo) hback
        rw [List.length_drop] at hlen
        rw [← Except.ok.inj h, turns_left splitter htwo hi, List.length_cons, hlen]
        rfl
    · rw [turns_of_le_one splitter (by omega)]
      match leaves, hne with
      | [d], _ =>
        rw [← Except.ok.inj h]
        rfl
      | _ :: _ :: _, _ => simp at htwo

/-! ### The depth of the recursions -/

/-- Both halves of a list of at most `2 ^ (d + 1)` leaves have at most `2 ^ d`. -/
theorem length_halves_le {leaves : List Digest} {d : ℕ} (htwo : 2 ≤ leaves.length)
    (hle : leaves.length ≤ 2 ^ (d + 1)) : (leaves.take (split leaves.length)).length ≤ 2 ^ d ∧
      (leaves.drop (split leaves.length)).length ≤ 2 ^ d := by
  obtain ⟨k, hpoint, hlo, hhi⟩ := splitter_binary.exists_point htwo
  have hk : k < d + 1 := (Nat.pow_lt_pow_iff_right (by omega)).mp (hlo.trans_le hle)
  have hpow : 2 ^ k ≤ 2 ^ d := Nat.pow_le_pow_right (by omega) (by omega)
  rw [splitter_point] at hpoint
  rw [Nat.pow_succ] at hhi
  rw [List.length_take, List.length_drop, hpoint]
  omega

/-- `_subtree_root` of at most `2 ^ d` leaves needs no more than `d` calls inside. -/
theorem exists_subtreeRootAux (d : ℕ) : ∀ (leaves : List Digest) (fuel : ℕ), leaves ≠ [] →
    leaves.length ≤ 2 ^ d → d < fuel → ∃ root, subtreeRootAux P fuel leaves = .ok root := by
  induction d with
  | zero =>
    intro leaves fuel hne hle hfuel
    obtain ⟨fuel, rfl⟩ := Nat.exists_eq_succ_of_ne_zero (Nat.ne_zero_of_lt hfuel)
    match leaves, hne with
    | [a], _ => exact ⟨a, rfl⟩
    | _ :: _ :: _, _ => simp at hle
  | succ d ih =>
    intro leaves fuel hne hle hfuel
    by_cases htwo : 2 ≤ leaves.length
    · obtain ⟨fuel, rfl⟩ := Nat.exists_eq_succ_of_ne_zero (Nat.ne_zero_of_lt hfuel)
      obtain ⟨hleft, hright⟩ := length_halves_le htwo hle
      obtain ⟨l, hl⟩ := ih _ fuel (take_ne_nil splitter htwo) hleft (by omega)
      obtain ⟨r, hr⟩ := ih _ fuel (drop_ne_nil splitter htwo) hright (by omega)
      rw [splitter_point] at hl hr
      rw [subtreeRootAux_succ htwo, hl, hr]
      exact ⟨_, rfl⟩
    · have hone := Nat.one_le_two_pow (n := d)
      exact ih leaves fuel hne (by omega) (by omega)

/-- Nor does `_collect`, at any position. -/
theorem exists_collect (d : ℕ) : ∀ (leaves : List Digest) (i fuel : ℕ), leaves ≠ [] →
    leaves.length ≤ 2 ^ d → d < fuel → ∃ path, collect P fuel leaves i = .ok path := by
  induction d with
  | zero =>
    intro leaves i fuel hne hle hfuel
    obtain ⟨fuel, rfl⟩ := Nat.exists_eq_succ_of_ne_zero (Nat.ne_zero_of_lt hfuel)
    match leaves, hne with
    | [a], _ => exact ⟨[], rfl⟩
    | _ :: _ :: _, _ => simp at hle
  | succ d ih =>
    intro leaves i fuel hne hle hfuel
    by_cases htwo : 2 ≤ leaves.length
    · obtain ⟨fuel, rfl⟩ := Nat.exists_eq_succ_of_ne_zero (Nat.ne_zero_of_lt hfuel)
      obtain ⟨hleft, hright⟩ := length_halves_le htwo hle
      obtain ⟨front, hfront⟩ := ih _ i fuel (take_ne_nil splitter htwo) hleft (by omega)
      obtain ⟨back, hback⟩ :=
        ih _ (i - split leaves.length) fuel (drop_ne_nil splitter htwo) hright (by omega)
      rw [splitter_point] at hfront hback
      have hl : ∃ root, subtreeRoot P (leaves.take (split leaves.length)) = .ok root :=
        ⟨_, subtreeRoot_eq_eval _ (take_ne_nil splitter htwo)⟩
      have hr : ∃ root, subtreeRoot P (leaves.drop (split leaves.length)) = .ok root :=
        ⟨_, subtreeRoot_eq_eval _ (drop_ne_nil splitter htwo)⟩
      obtain ⟨l, hl⟩ := hl
      obtain ⟨r, hr⟩ := hr
      rw [collect_succ htwo, hl, hr, hfront, hback]
      split <;> exact ⟨_, rfl⟩
    · have hone := Nat.one_le_two_pow (n := d)
      exact ih leaves i fuel hne (by omega) (by omega)

/-- `_fold` at a size of at most `2 ^ d` looks at `d` steps only, whatever they hold. -/
theorem foldSteps_append {leaf : Digest} (d : ℕ) : ∀ (steps : List ProofStep) (index size : ℕ),
    1 ≤ size → size ≤ 2 ^ d → d ≤ steps.length → ∀ extra,
      foldSteps P index size leaf (steps ++ extra)
        = (foldSteps P index size leaf steps).map fun q => (q.1, q.2 ++ extra) := by
  induction d with
  | zero =>
    intro steps index size hpos hle _ extra
    obtain rfl : size = 1 := by omega
    cases steps with
    | nil => cases extra <;> rfl
    | cons step steps => rfl
  | succ d ih =>
    intro steps index size hpos hle hlen extra
    match steps with
    | [] => cases hlen
    | step :: steps =>
      by_cases hone : size = 1
      · subst hone
        rfl
      · obtain ⟨k, hpoint, hlo, hhi⟩ := splitter_binary.exists_point (n := size) (by omega)
        have hk : k < d + 1 := (Nat.pow_lt_pow_iff_right (by omega)).mp (hlo.trans_le hle)
        have hpow : 2 ^ k ≤ 2 ^ d := Nat.pow_le_pow_right (by omega) (by omega)
        have hpow' := Nat.one_le_two_pow (n := k)
        rw [splitter_point] at hpoint
        rw [Nat.pow_succ] at hhi
        rw [List.length_cons] at hlen
        have hhalf : 1 ≤ (halfAt index size).2 ∧ (halfAt index size).2 ≤ 2 ^ d := by
          unfold halfAt
          split <;> simp only <;> omega
        cases hstep : decodeStep step with
        | none =>
          obtain ⟨e, -, hfold⟩ := exists_undecodable (P := P) hstep
          rw [List.cons_append, hfold _ _ _ _ _ hone, hfold _ _ _ _ _ hone]
          rfl
        | some sx =>
          rw [List.cons_append, foldSteps_cons hone hstep, foldSteps_cons hone hstep,
            ih steps _ _ hhalf.1 hhalf.2 (by omega) extra]
          by_cases hturn : sx.1 = turnAt index size
          · rw [if_pos hturn, if_pos hturn]
            cases foldSteps P (halfAt index size).1 (halfAt index size).2 leaf steps <;> rfl
          · rw [if_neg hturn, if_neg hturn]
            rfl

/-! ### The length of a proof -/

/-- There is a leaf for every record hash. -/
theorem length_leaves : ∀ {hs : List PyStr} {leaves : List Digest},
    hs.mapM (leafHash P) = .ok leaves → leaves.length = hs.length
  | [], leaves, h => by
    rw [← Except.ok.inj h]
    rfl
  | x :: hs, leaves, h => by
    rw [List.mapM_cons] at h
    obtain ⟨d, -, h⟩ := bind_eq_ok.mp h
    obtain ⟨ds, hds, h⟩ := bind_eq_ok.mp h
    rw [← Except.ok.inj h, List.length_cons, List.length_cons, length_leaves hds]

/-- The path of a proof has a step for every turn on the way to its position. -/
theorem length_path {hs : List PyStr} {seq : ℤ} {p : InclusionProof}
    (h : merkleProof P hs seq = .ok p) :
    p.path.length = (turns splitter seq.toNat hs.length).length := by
  rw [merkleProof] at h
  split at h
  · rename_i hrange
    obtain ⟨leaves, hleaves, h⟩ := bind_eq_ok.mp h
    obtain ⟨path, hpath, h⟩ := bind_eq_ok.mp h
    obtain ⟨root, -, h⟩ := bind_eq_ok.mp h
    have hlen : leaves.length = hs.length := length_leaves hleaves
    have hne : leaves ≠ [] := by
      rw [← List.length_pos_iff]
      omega
    rw [← Except.ok.inj h, List.length_reverse, length_collect _ _ _ hne hpath, hlen]
  · cases h

/-- **Logarithmic length**: a proof in a log of `n` records has at most `(n - 1).bit_length()`
steps, the least `d` with `2 ^ d ≥ n`, and the proof at position 0 has exactly that many;
every list of hex texts has a proof at every position.  Behind it is the split of a size at a
power of two, and the recursions, which end within that depth: of the prover over non-empty
lists, and of the verifier, which never reads a step beyond it. -/
theorem merkleProof_logarithmic (P : Runtime) :
    (∀ n d, 1 ≤ n → (Nat.size (n - 1) ≤ d ↔ n ≤ 2 ^ d)) ∧
    (∀ (hs : List PyStr) (seq : ℤ), 0 ≤ seq → seq < hs.length →
      ((∀ x ∈ hs, (fromHex? x).isSome = true) → ∃ p, merkleProof P hs seq = .ok p) ∧
      ∀ p, merkleProof P hs seq = .ok p →
        p.path.length ≤ Nat.size (hs.length - 1) ∧
          (seq = 0 → p.path.length = Nat.size (hs.length - 1))) ∧
    (∀ m, 2 ≤ m → (∃ j, split m = 2 ^ j) ∧ 1 ≤ split m ∧ split m < m ∧ m ≤ 2 * split m) ∧
    (∀ (leaves : List Digest) (fuel : ℕ), leaves ≠ [] → Nat.size (leaves.length - 1) < fuel →
      (∃ root, subtreeRootAux P fuel leaves = .ok root) ∧
        ∀ index, ∃ path, collect P fuel leaves index = .ok path) ∧
    ∀ (steps extra : List ProofStep) (index size : ℕ) (leaf : Digest), 1 ≤ size →
      Nat.size (size - 1) ≤ steps.length →
        foldSteps P index size leaf (steps ++ extra)
          = (foldSteps P index size leaf steps).map fun q => (q.1, q.2 ++ extra) := by
  refine ⟨fun n d hn => size_pred_le_iff hn d, fun hs seq hseq hlt => ⟨fun hhex => ?_, ?_⟩,
    fun m hm => ?_, fun leaves fuel hne hfuel => ?_,
    fun steps extra index size leaf hpos hlen => ?_⟩
  · obtain ⟨bs, hbs⟩ := exists_decodes hhex
    have hne : hs ≠ [] := by
      rintro rfl
      simp at hlt
      omega
    obtain ⟨i, rfl⟩ := Int.eq_ofNat_of_zero_le hseq
    have hi : i < hs.length := by exact_mod_cast hlt
    obtain ⟨ds, -, hproof⟩ := merkleProof_eq (P := P) hbs (hbs.ne_nil hne) hi
      (by rw [hbs.length_eq]; exact hi)
    exact ⟨_, hproof⟩
  · intro p hp
    have hn : 1 ≤ hs.length := by omega
    have hle : p.path.length ≤ Nat.size (hs.length - 1) := by
      rw [length_path hp]
      exact length_turns_le splitter_binary _ _ _ ((size_pred_le_iff hn _).mp le_rfl)
    refine ⟨hle, ?_⟩
    rintro rfl
    refine le_antisymm hle ((size_pred_le_iff hn _).mpr ?_)
    by_contra hlong
    have hdeep := lt_length_turns_zero splitter_binary _ _ (Nat.lt_of_not_le hlong)
    rw [length_path hp] at hdeep
    exact lt_irrefl _ hdeep
  · obtain ⟨k, hpoint, hlo, hhi⟩ := splitter_binary.exists_point hm
    have hpow := Nat.one_le_two_pow (n := k)
    rw [splitter_point] at hpoint
    rw [Nat.pow_succ] at hhi
    exact ⟨⟨k, hpoint⟩, by omega, by omega, by omega⟩
  · have hle := (size_pred_le_iff (List.length_pos_iff.mpr hne) _).mp le_rfl
    exact ⟨exists_subtreeRootAux _ leaves fuel hne hle hfuel,
      fun index => exists_collect _ leaves index fuel hne hle hfuel⟩
  · exact foldSteps_append _ steps index size hpos ((size_pred_le_iff hpos _).mp le_rfl) hlen extra

/-- Of two records, the proof of the first has one step. -/
theorem merkleProof_logarithmic_two : ∃ p,
    merkleProof referenceRuntime twoHashes 0 = .ok p ∧ p.path.length = 1 := by
  obtain ⟨-, hproofs, -⟩ := merkleProof_logarithmic referenceRuntime
  obtain ⟨hexists, hlength⟩ := hproofs twoHashes 0 le_rfl (by decide)
  obtain ⟨p, hp⟩ := hexists (by decide)
  exact ⟨p, hp, (hlength p hp).2 rfl⟩

end AuditChain
