/-
AuditChain/Merkle.lean

Merkle trees over record hashes: the root, inclusion proofs and their check.

Prover and verifier walk the tree separately.  The prover (`collect`) goes down
from the root and reverses what it collected; the verifier (`foldSteps`) takes
steps from the end of the path while it goes down and hashes on the way back.
A list that is popped from the end is modelled by its reversal, popped from the
front.

`_subtree_root` of an empty list would recurse forever.  Nothing calls it so;
the recursion here is bounded by the length of the list and ends with the
`RecursionError` that Python would raise.
-/
import AuditChain.Runtime

namespace AuditChain

open Python

/-- The loop of `_split`: double `k` while twice of it is below `size`. -/
def splitLoop : ℕ → ℕ → ℕ → ℕ
  | 0, k, _ => k
  | fuel + 1, k, size => if k * 2 < size then splitLoop fuel (k * 2) size else k

/-- The largest power of two strictly below `size`. -/
def split (size : ℕ) : ℕ := splitLoop size 1 size

variable (P : Runtime)

/-- The root of the empty batch. -/
def EMPTY_ROOT : PyStr := (P.sha256 []).hex

/-- Hash a record hash into a tree leaf. -/
def leafHash (recordHash : PyStr) : Except PyError Digest := do
  let b ← fromHex recordHash
  return P.sha256 (0x00 :: b)

/-- Hash two children into a node. -/
def nodeHash (left right : Bytes) : Digest := P.sha256 (0x01 :: (left ++ right))

/-- `RecursionError`. -/
def recursionError : PyError := ⟨.recursionError, lit "maximum recursion depth exceeded"⟩

/-- `_subtree_root`, with a bound on the depth. -/
def subtreeRootAux : ℕ → List Digest → Except PyError Digest
  | 0, _ => .error recursionError
  | _ + 1, [d] => .ok d
  | fuel + 1, leaves => do
    let k := split leaves.length
    let left ← subtreeRootAux fuel (leaves.take k)
    let right ← subtreeRootAux fuel (leaves.drop k)
    return nodeHash P left.val right.val

/-- `_subtree_root`. -/
def subtreeRoot (leaves : List Digest) : Except PyError Digest :=
  subtreeRootAux P leaves.length leaves

/-- Merkle root of a list of record hashes. -/
def merkleRoot (recordHashes : List PyStr) : Except PyError PyStr := do
  let leaves ← recordHashes.mapM (leafHash P)
  if leaves.isEmpty then return EMPTY_ROOT P
  let root ← subtreeRoot P leaves
  return root.hex

/-- One sibling on the way from the leaf to the root. -/
structure ProofStep where
  side : PyStr
  hash : PyStr
  deriving DecidableEq

/-- Proof that the record at `seq` is part of a log of `size` records.  The path
reads from the leaf up. -/
structure InclusionProof where
  seq : ℤ
  size : ℤ
  leaf : PyStr
  root : PyStr
  path : List ProofStep
  deriving DecidableEq

/-- `_fold`.  The head of `steps` is the end of the list that Python pops.  A call makes one
more for every turn of the position, so a path from a file can be as deep as it likes:
`room` is the number of calls the stack has room for below this one, none for enough.
Where there is room for no more it is the call of `_split` that fails. -/
def foldSteps (index size : ℕ) (leaf : Digest) (steps : List ProofStep)
    (room : Option ℕ := none) : Except PyError (Digest × List ProofStep) :=
  match steps with
  | [] =>
    if size = 1 then .ok (leaf, [])
    else .error ⟨.indexError, lit "pop from empty list"⟩
  | step :: steps =>
    if size = 1 then .ok (leaf, step :: steps)
    else if step.side ≠ lit "left" ∧ step.side ≠ lit "right" then
      .error (valueError (lit "unknown sibling side " ++ strRepr P.unicode step.side))
    else do
      let sibling ← fromHex step.hash
      if room = some 0 then .error recursionError
      else if index < split size then
        if step.side ≠ lit "right" then
          .error (valueError (lit "sibling side does not match the tree position"))
        else
          let (d, rest) ← foldSteps index (split size) leaf steps (room.map (· - 1))
          return (nodeHash P d.val sibling, rest)
      else if step.side ≠ lit "left" then
        .error (valueError (lit "sibling side does not match the tree position"))
      else
        let (d, rest) ←
          foldSteps (index - split size) (size - split size) leaf steps (room.map (· - 1))
        return (nodeHash P sibling d.val, rest)

/-- `except (ValueError, IndexError) as exc: raise ValueError(...) from exc`. -/
def malformedProof (e : PyError) : PyError :=
  if e.isValueError || e.cls == .indexError then
    valueError (lit "malformed inclusion proof: " ++ e.msg)
  else e

/-- Recompute the root from the leaf and the path, with `room` for so many calls of `_fold`
inside the first. -/
def InclusionProof.fold (p : InclusionProof) (room : Option ℕ := none) : Except PyError PyStr :=
  if p.size < 1 then .error (valueError (lit "proof size must be at least 1"))
  else if ¬(0 ≤ p.seq ∧ p.seq < p.size) then
    .error (valueError (lit "seq " ++ intStr p.seq ++ lit " is outside a log of "
      ++ intStr p.size ++ lit " record(s)"))
  else
    match (do
      let leaf ← leafHash P p.leaf
      foldSteps P p.seq.toNat p.size.toNat leaf p.path.reverse room) with
    | .error e => .error (malformedProof e)
    | .ok (root, steps) =>
      if steps.isEmpty then .ok root.hex
      else .error (valueError (lit "malformed inclusion proof: extra hashes in the path"))

/-- True if the path folds to `root`, or to the proof's own root when omitted. -/
def InclusionProof.verify (p : InclusionProof) (root : Option PyStr)
    (room : Option ℕ := none) : Except PyError Bool :=
  let expected := root.getD p.root
  match p.fold P room with
  | .ok r => .ok (r == lower expected)
  | .error e => if e.isValueError then .ok false else .error e

/-- `_collect`, with a bound on the depth: the siblings from the root down. -/
def collect : ℕ → List Digest → ℕ → Except PyError (List ProofStep)
  | 0, _, _ => .error recursionError
  | _ + 1, [_], _ => .ok []
  | fuel + 1, leaves, index => do
    let k := split leaves.length
    if index < k then
      let sibling ← subtreeRoot P (leaves.drop k)
      let path ← collect fuel (leaves.take k) index
      return ⟨lit "right", sibling.hex⟩ :: path
    else
      let sibling ← subtreeRoot P (leaves.take k)
      let path ← collect fuel (leaves.drop k) (index - k)
      return ⟨lit "left", sibling.hex⟩ :: path

/-- Build an inclusion proof for the record at position `seq`. -/
def merkleProof (recordHashes : List PyStr) (seq : ℤ) : Except PyError InclusionProof :=
  if h : 0 ≤ seq ∧ seq < recordHashes.length then do
    have hlt : seq.toNat < recordHashes.length := by omega
    let leaves ← recordHashes.mapM (leafHash P)
    let path ← collect P leaves.length leaves seq.toNat
    let root ← subtreeRoot P leaves
    return {
      seq := seq
      size := recordHashes.length
      leaf := recordHashes[seq.toNat]
      root := root.hex
      path := path.reverse }
  else
    .error (valueError (lit "seq " ++ intStr seq ++ lit " is outside the log ("
      ++ natStr recordHashes.length ++ lit " records)"))

variable {P}

theorem Digest.hex_ne_nil (d : Digest) : d.hex ≠ [] := by
  intro h
  have hlen := d.length_hex
  rw [h] at hlen
  cases hlen

theorem merkleRoot_ne_nil {hs : List PyStr} {root : PyStr} (h : merkleRoot P hs = .ok root) :
    root ≠ [] := by
  obtain ⟨leaves, -, h⟩ := bind_eq_ok.mp h
  split at h
  · rw [← Except.ok.inj h]
    exact Digest.hex_ne_nil _
  · obtain ⟨d, -, h⟩ := bind_eq_ok.mp h
    rw [← Except.ok.inj h]
    exact Digest.hex_ne_nil _

end AuditChain
