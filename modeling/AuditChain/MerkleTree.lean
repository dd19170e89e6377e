/-
AuditChain/MerkleTree.lean

The Merkle code computes hash trees.

`scheme P` is the RFC 6962 hashing as an instance of the general theory: leaves
under the prefix 0x00, nodes under 0x01, both children of a node 32 bytes long
in a proper tree.  `splitter` is `_split`.  Then

    merkleRoot_eq      the root is the root of the tree over the decoded hashes
    collect_eq         the prover lists the siblings of a position
    fold_eq_ok_iff     the verifier accepts a path exactly when its sides are the
                       turns of (seq, size), and returns what it climbs to

so that everything about proofs becomes a question about turns.
-/
import AuditChain.Merkle
import AuditChain.TreeLevels

namespace AuditChain

open Python HashTree

variable (P : Runtime)

/-! ### The split point -/

theorem splitLoop_lt : ∀ (fuel k size : ℕ), k < size → splitLoop fuel k size < size
  | 0, _, _, h => h
  | fuel + 1, k, size, h => by
    rw [splitLoop]
    split
    · exact splitLoop_lt fuel (k * 2) size (by assumption)
    · exact h

theorem splitLoop_pos : ∀ (fuel k size : ℕ), 0 < k → 0 < splitLoop fuel k size
  | 0, _, _, h => h
  | fuel + 1, k, size, h => by
    rw [splitLoop]
    split
    · exact splitLoop_pos fuel (k * 2) size (by omega)
    · exact h

/-- `_split` splits strictly inside. -/
def splitter : Splitter where
  point := split
  pos n _ := splitLoop_pos n 1 n (by omega)
  lt n hn := splitLoop_lt n 1 n (by omega)

@[simp] theorem splitter_point (n : ℕ) : splitter.point n = split n := rfl

/-! ### The hashing scheme -/

/-- RFC 6962 hashing. -/
def scheme : Scheme Bytes Digest Bytes Bytes where
  hash := P.sha256
  raw := Subtype.val
  leafPre b := 0x00 :: b
  nodePre l r := 0x01 :: (l ++ r)
  leafPre_inj _ _ h := (List.cons.inj h).2
  leaf_ne_node _ _ _ h := absurd (List.cons.inj h).1 (by decide)
  node_left d x e f h := by
    obtain ⟨hd, hx⟩ := List.append_inj (List.cons.inj h).2 (by rw [d.property, e.property])
    exact ⟨Subtype.ext hd, hx⟩
  node_right x d e f h := by
    obtain ⟨hx, hd⟩ := List.append_inj' (List.cons.inj h).2 (by rw [d.property, f.property])
    exact ⟨hx, Subtype.ext hd⟩

/-- The tree over record hashes that are already decoded. -/
def treeOf (bs : List Bytes) (h : bs ≠ []) : HTree Bytes := ofList splitter bs h

/-- The leaf digest of a decoded record hash. -/
def leafDigest (b : Bytes) : Digest := P.sha256 (0x00 :: b)

/-- A list of texts decodes to a list of byte strings. -/
def Decodes (hs : List PyStr) (bs : List Bytes) : Prop := hs.mapM fromHex? = some bs

variable {P}

theorem leafHash_eq {h : PyStr} {b : Bytes} (hb : fromHex? h = some b) :
    leafHash P h = .ok (leafDigest P b) := by
  simp only [leafHash, fromHex, hb]
  rfl

theorem mapM_leafHash {hs : List PyStr} {bs : List Bytes} (h : Decodes hs bs) :
    hs.mapM (leafHash P) = .ok (bs.map (leafDigest P)) := by
  unfold Decodes at h
  induction hs generalizing bs with
  | nil =>
    obtain rfl : [] = bs := Option.some.inj h
    rfl
  | cons s hs ih =>
    simp only [List.mapM_cons, Option.bind_eq_bind, Option.bind_eq_some_iff, Option.pure_def,
      Option.some.injEq] at h
    obtain ⟨b, hb, bs', hbs, rfl⟩ := h
    simp only [List.mapM_cons, leafHash_eq hb, ih hbs, List.map_cons]
    rfl

theorem Decodes.length_eq {hs : List PyStr} {bs : List Bytes} (h : Decodes hs bs) :
    bs.length = hs.length :=
  (mapM_eq_some.mp h).length_eq.symm

theorem Decodes.getElem {hs : List PyStr} {bs : List Bytes} (h : Decodes hs bs) (i : ℕ)
    (hi : i < hs.length) (hi' : i < bs.length) : fromHex? hs[i] = some bs[i] :=
  (mapM_eq_some.mp h).get hi hi'

theorem Decodes.ne_nil {hs : List PyStr} {bs : List Bytes} (h : Decodes hs bs) (hne : hs ≠ []) :
    bs ≠ [] := by
  rw [← List.length_pos_iff, h.length_eq, List.length_pos_iff]
  exact hne

/-- Valid hex texts decode. -/
theorem exists_decodes {hs : List PyStr} (h : ∀ x ∈ hs, (fromHex? x).isSome = true) :
    ∃ bs, Decodes hs bs := by
  unfold Decodes
  induction hs with
  | nil => exact ⟨[], rfl⟩
  | cons s hs ih =>
    obtain ⟨b, hb⟩ := Option.isSome_iff_exists.mp (h s List.mem_cons_self)
    obtain ⟨bs, hbs⟩ := ih fun x hx => h x (List.mem_cons_of_mem s hx)
    exact ⟨b :: bs, by simp [hb, hbs]⟩

/-! ### The root -/

/-- `_subtree_root` on two leaves or more. -/
theorem subtreeRootAux_succ {fuel : ℕ} {leaves : List Digest} (h : 2 ≤ leaves.length) :
    subtreeRootAux P (fuel + 1) leaves = (do
      let left ← subtreeRootAux P fuel (leaves.take (split leaves.length))
      let right ← subtreeRootAux P fuel (leaves.drop (split leaves.length))
      return nodeHash P left.val right.val) := by
  match leaves, h with
  | _ :: _ :: _, _ => rw [subtreeRootAux]; simp

variable (P) in
/-- `_node_hash` of two digests. -/
def joinDigests (l r : Digest) : Digest := nodeHash P l.val r.val

/-- `_subtree_root` combines the leaves along the tree. -/
theorem subtreeRootAux_eq (ds : List Digest) (hds : ds ≠ []) :
    ∀ fuel, ds.length ≤ fuel →
      subtreeRootAux P fuel ds = .ok ((ofList splitter ds hds).eval (joinDigests P)) := by
  induction ds, hds using split_induction splitter with
  | single d h =>
    intro fuel hf
    obtain ⟨fuel, rfl⟩ : ∃ m, fuel = m + 1 := ⟨fuel - 1, by simp at hf; omega⟩
    rw [ofList_singleton]
    rfl
  | split ds hds h ihl ihr =>
    intro fuel hf
    have hpos := splitter.pos ds.length h
    have hlt := splitter.lt ds.length h
    obtain ⟨fuel, rfl⟩ : ∃ m, fuel = m + 1 := ⟨fuel - 1, by omega⟩
    have hl := ihl fuel (by rw [List.length_take]; omega)
    have hr := ihr fuel (by rw [List.length_drop]; omega)
    rw [subtreeRootAux_succ h, ofList_split _ _ h]
    simp only [splitter_point] at hl hr ⊢
    rw [hl, hr]
    rfl

theorem subtreeRoot_eq_eval (ds : List Digest) (hds : ds ≠ []) :
    subtreeRoot P ds = .ok ((ofList splitter ds hds).eval (joinDigests P)) :=
  subtreeRootAux_eq ds hds _ le_rfl

theorem subtreeRoot_eq (bs : List Bytes) (hbs : bs ≠ []) :
    subtreeRoot P (bs.map (leafDigest P)) = .ok ((treeOf bs hbs).root (scheme P)) := by
  have hds : bs.map (leafDigest P) ≠ [] := by simpa using hbs
  rw [subtreeRoot_eq_eval _ hds, treeOf, root_ofList (scheme P) splitter bs hbs hds]
  rfl

/-- **The Merkle root** is the root of the tree over the decoded hashes. -/
theorem merkleRoot_eq {hs : List PyStr} {bs : List Bytes} (h : Decodes hs bs) (hbs : bs ≠ []) :
    merkleRoot P hs = .ok ((treeOf bs hbs).root (scheme P)).hex := by
  have hne : (bs.map (leafDigest P)).isEmpty = false := by
    simpa using hbs
  rw [merkleRoot, mapM_leafHash h, ok_bind, hne, if_neg Bool.false_ne_true,
    subtreeRoot_eq bs hbs, ok_bind]
  rfl

/-! ### Proof steps -/

/-- The word for a side. -/
def sideText : Side → PyStr
  | .left => lit "left"
  | .right => lit "right"

/-- The step that the prover writes for a sibling. -/
def siblingStep (s : Side) (d : Digest) : ProofStep := ⟨sideText s, d.hex⟩

/-- The side and the bytes of a step, if it has both. -/
def decodeStep (step : ProofStep) : Option (Side × Bytes) :=
  if step.side = lit "left" then (fromHex? step.hash).map (Prod.mk .left)
  else if step.side = lit "right" then (fromHex? step.hash).map (Prod.mk .right)
  else none

/-- A step decodes when it names the side and its hash decodes. -/
theorem decodeStep_eq_some {step : ProofStep} {s : Side} {x : Bytes} :
    decodeStep step = some (s, x) ↔ step.side = sideText s ∧ fromHex? step.hash = some x := by
  have hlr : lit "right" ≠ lit "left" := by decide
  unfold decodeStep
  split
  · rename_i hside
    simp only [Option.map_eq_some_iff, Prod.mk.injEq, hside]
    cases s with
    | left => simp [sideText]
    | right => simp [sideText, hlr.symm]
  · rename_i hside
    split
    · rename_i hside'
      simp only [Option.map_eq_some_iff, Prod.mk.injEq, hside']
      cases s with
      | left => simp [sideText, hlr]
      | right => simp [sideText]
    · rename_i hside'
      cases s with
      | left => simp [sideText, hside]
      | right => simp [sideText, hside']

theorem decodeStep_siblingStep (s : Side) (d : Digest) :
    decodeStep (siblingStep s d) = some (s, d.val) :=
  decodeStep_eq_some.mpr ⟨rfl, fromHex?_hexStr d.val⟩

/-- What the prover writes decodes to the siblings. -/
theorem mapM_decodeStep_siblings : ∀ (ss : List Side) (ds : List Digest),
    (List.zipWith siblingStep ss ds).mapM decodeStep = some (ss.zip (ds.map Subtype.val))
  | [], _ => by simp
  | _ :: _, [] => by simp
  | s :: ss, d :: ds => by
    simp [decodeStep_siblingStep, mapM_decodeStep_siblings ss ds]

/-! ### The prover -/

theorem collect_succ {fuel i : ℕ} {leaves : List Digest} (h : 2 ≤ leaves.length) :
    collect P (fuel + 1) leaves i =
      if i < split leaves.length then do
        let sibling ← subtreeRoot P (leaves.drop (split leaves.length))
        let path ← collect P fuel (leaves.take (split leaves.length)) i
        return siblingStep .right sibling :: path
      else do
        let sibling ← subtreeRoot P (leaves.take (split leaves.length))
        let path ← collect P fuel (leaves.drop (split leaves.length)) (i - split leaves.length)
        return siblingStep .left sibling :: path := by
  match leaves, h with
  | _ :: _ :: _, _ => rw [collect]; rfl; simp

/-- **The prover** lists the siblings of the position, from the root down. -/
theorem collect_eq (bs : List Bytes) (hbs : bs ≠ []) :
    ∀ fuel, bs.length ≤ fuel → ∀ i (hi : i < bs.length),
      ∃ ds, (treeOf bs hbs).openAt (scheme P) (turns splitter i bs.length) = some (bs[i], ds) ∧
        collect P fuel (bs.map (leafDigest P)) i =
          .ok (List.zipWith siblingStep (turns splitter i bs.length) ds) := by
  unfold treeOf
  induction bs, hbs using split_induction splitter with
  | single b h =>
    intro fuel hf i hi
    obtain ⟨fuel, rfl⟩ : ∃ m, fuel = m + 1 := ⟨fuel - 1, by simp at hf; omega⟩
    obtain rfl : i = 0 := by simpa using hi
    refine ⟨[], ?_, ?_⟩
    · rw [ofList_singleton, turns_of_le_one _ (by simp)]; rfl
    · rw [turns_of_le_one _ (by simp)]; rfl
  | split bs hbs h ihl ihr =>
    intro fuel hf i hi
    have hpos := splitter.pos bs.length h
    have hlt := splitter.lt bs.length h
    obtain ⟨fuel, rfl⟩ : ∃ m, fuel = m + 1 := ⟨fuel - 1, by omega⟩
    have hlenl : (bs.take (splitter.point bs.length)).length = splitter.point bs.length := by
      rw [List.length_take]; omega
    have hlenr : (bs.drop (splitter.point bs.length)).length
        = bs.length - splitter.point bs.length := List.length_drop
    rw [collect_succ (by rw [List.length_map]; exact h), List.length_map, ofList_split _ _ h,
      ← List.map_drop, ← List.map_take, ← splitter_point,
      subtreeRoot_eq _ (drop_ne_nil splitter h), subtreeRoot_eq _ (take_ne_nil splitter h)]
    -- the sibling is the root of the half that does not hold the position
    by_cases hi' : i < splitter.point bs.length
    · obtain ⟨ds, hopen, hpath⟩ := ihl fuel (by omega) i (by omega)
      have hturns := congrArg (turns splitter i) hlenl
      rw [hturns, List.getElem_take] at hopen
      rw [hturns] at hpath
      rw [if_pos hi', turns_right _ h hi', HTree.openAt, hopen, hpath]
      exact ⟨_, rfl, rfl⟩
    · obtain ⟨ds, hopen, hpath⟩ := ihr fuel (by omega) (i - splitter.point bs.length) (by omega)
      have hturns := congrArg (turns splitter (i - splitter.point bs.length)) hlenr
      rw [hturns, List.getElem_drop] at hopen
      rw [hturns] at hpath
      rw [if_neg hi', turns_left _ h hi', HTree.openAt, hopen, hpath]
      have hback : splitter.point bs.length + (i - splitter.point bs.length) = i := by omega
      simp only [Option.map_some, hback]
      exact ⟨_, rfl, rfl⟩

/-! ### The verifier -/

/-- The side of the sibling on the way to position `index` of `size`. -/
def turnAt (index size : ℕ) : Side := if index < split size then .right else .left

/-- Position and size in the half that holds position `index` of `size`. -/
def halfAt (index size : ℕ) : ℕ × ℕ :=
  if index < split size then (index, split size) else (index - split size, size - split size)

theorem turns_eq_cons (index : ℕ) {size : ℕ} (h : 2 ≤ size) : turns splitter index size
    = turnAt index size :: turns splitter (halfAt index size).1 (halfAt index size).2 := by
  unfold turnAt halfAt
  by_cases hindex : index < split size
  · rw [turns_right _ h hindex, if_pos hindex, if_pos hindex, splitter_point]
  · rw [turns_left _ h hindex, if_neg hindex, if_neg hindex, splitter_point]

theorem halfAt_pos (index : ℕ) {size : ℕ} (h : 2 ≤ size) : 0 < (halfAt index size).2 := by
  have hlt : split size < size := splitter.lt size h
  unfold halfAt
  split
  · exact splitter.pos size h
  · exact Nat.sub_pos_of_lt hlt

variable (P) in
/-- The node over a digest and the sibling bytes beside it. -/
def joinStep (s : Side) (d : Digest) (x : Bytes) : Digest :=
  match s with
  | .right => nodeHash P d.val x
  | .left => nodeHash P x d.val

theorem climb_cons (b : Bytes) (s : Side) (x : Bytes) (dec : List (Side × Bytes)) :
    climb (scheme P) b ((s, x) :: dec) = joinStep P s (climb (scheme P) b dec) x := by
  cases s <;> rfl

/-- Where there is room for no more calls, a step that decodes is the last that is read. -/
theorem foldSteps_no_room (index : ℕ) {size : ℕ} (leaf : Digest) {step : ProofStep}
    (steps : List ProofStep) {s : Side} {x : Bytes} (hsize : size ≠ 1)
    (hstep : decodeStep step = some (s, x)) :
    foldSteps P index size leaf (step :: steps) (some 0) = .error recursionError := by
  obtain ⟨hside, hhash⟩ := decodeStep_eq_some.mp hstep
  have hx : fromHex step.hash = .ok x := by rw [fromHex, hhash]
  rw [foldSteps, if_neg hsize, hx, hside]
  cases s <;> simp [sideText]

/-- **One step of `_fold`** below the top, for a step that decodes: the sibling has to be
on the side of the turn, and the walk goes on in the half that holds the position. -/
theorem foldSteps_cons_room {index size : ℕ} {leaf : Digest} {step : ProofStep}
    {steps : List ProofStep} {s : Side} {x : Bytes} {room : Option ℕ} (hsize : size ≠ 1)
    (hstep : decodeStep step = some (s, x)) (hroom : room ≠ some 0) :
    foldSteps P index size leaf (step :: steps) room =
      if s = turnAt index size then do
        let (d, rest) ←
          foldSteps P (halfAt index size).1 (halfAt index size).2 leaf steps (room.map (· - 1))
        return (joinStep P s d x, rest)
      else .error (valueError (lit "sibling side does not match the tree position")) := by
  obtain ⟨hside, hhash⟩ := decodeStep_eq_some.mp hstep
  have hx : fromHex step.hash = .ok x := by rw [fromHex, hhash]
  have hlr : lit "left" ≠ lit "right" := by decide
  rw [foldSteps, if_neg hsize, hx, hside, ok_bind, if_neg hroom]
  unfold turnAt halfAt
  by_cases hindex : index < split size <;> cases s <;>
    simp [sideText, hlr, hlr.symm, hindex, joinStep]

/-- The same with room enough. -/
theorem foldSteps_cons {index size : ℕ} {leaf : Digest} {step : ProofStep}
    {steps : List ProofStep} {s : Side} {x : Bytes} (hsize : size ≠ 1)
    (hstep : decodeStep step = some (s, x)) :
    foldSteps P index size leaf (step :: steps) =
      if s = turnAt index size then do
        let (d, rest) ← foldSteps P (halfAt index size).1 (halfAt index size).2 leaf steps
        return (joinStep P s d x, rest)
      else .error (valueError (lit "sibling side does not match the tree position")) :=
  foldSteps_cons_room hsize hstep (Option.some_ne_none 0).symm

/-- What such a step returns. -/
theorem foldSteps_cons_ok {index size : ℕ} {leaf d : Digest} {step : ProofStep}
    {steps rest : List ProofStep} {s : Side} {x : Bytes} (hsize : size ≠ 1)
    (hstep : decodeStep step = some (s, x)) :
    foldSteps P index size leaf (step :: steps) = .ok (d, rest) ↔
      s = turnAt index size ∧ ∃ d',
        foldSteps P (halfAt index size).1 (halfAt index size).2 leaf steps = .ok (d', rest) ∧
          d = joinStep P s d' x := by
  rw [foldSteps_cons hsize hstep]
  by_cases hturn : s = turnAt index size
  · rw [if_pos hturn, bind_eq_ok]
    constructor
    · rintro ⟨⟨d', rest'⟩, hrec, h⟩
      obtain ⟨rfl, rfl⟩ := Prod.mk.inj (Except.ok.inj h)
      exact ⟨hturn, d', hrec, rfl⟩
    · rintro ⟨-, d', hrec, rfl⟩
      exact ⟨(d', rest), hrec, rfl⟩
  · rw [if_neg hturn]
    constructor
    · intro h
      cases h
    · intro h
      exact absurd h.1 hturn

/-- A step that does not decode ends the walk with a `ValueError`, room or not. -/
theorem exists_undecodable {step : ProofStep} (hstep : decodeStep step = none) :
    ∃ e, e.isValueError = true ∧ ∀ (index size : ℕ) (leaf : Digest) (steps : List ProofStep)
      (room : Option ℕ), size ≠ 1 →
        foldSteps P index size leaf (step :: steps) room = .error e := by
  by_cases hside : step.side ≠ lit "left" ∧ step.side ≠ lit "right"
  · refine ⟨valueError (lit "unknown sibling side " ++ strRepr P.unicode step.side), rfl, ?_⟩
    intro index size leaf steps room hsize
    rw [foldSteps, if_neg hsize, if_pos hside]
  · have hnone : fromHex? step.hash = none := by
      unfold decodeStep at hstep
      split at hstep
      · simpa using hstep
      · split at hstep
        · simpa using hstep
        · rename_i h1 h2
          exact absurd ⟨h1, h2⟩ hside
    obtain ⟨e, he⟩ : ∃ e, fromHex step.hash = .error e := by
      rw [fromHex, hnone]; exact ⟨_, rfl⟩
    refine ⟨e, fromHex_error_isValueError he, fun index size leaf steps room hsize => ?_⟩
    rw [foldSteps, if_neg hsize, if_neg hside, he]
    rfl

theorem foldSteps_undecodable (index : ℕ) (leaf : Digest) (steps : List ProofStep) {size : ℕ}
    {step : ProofStep} (hsize : size ≠ 1) (hstep : decodeStep step = none) :
    ∃ e, foldSteps P index size leaf (step :: steps) = .error e ∧ e.isValueError = true := by
  obtain ⟨e, hval, hfold⟩ := exists_undecodable (P := P) hstep
  exact ⟨e, hfold index size leaf steps none hsize, hval⟩

/-- The walk fails only in ways that `fold` turns into a `ValueError`. -/
theorem foldSteps_error {leaf : Digest} : ∀ (steps : List ProofStep) (index size : ℕ)
    {e : PyError}, foldSteps P index size leaf steps = .error e →
      e.isValueError = true ∨ e.cls = .indexError
  | [], index, size, e, h => by
    unfold foldSteps at h
    split at h
    · cases h
    · -- nothing left to pop
      obtain rfl := Except.error.inj h
      exact Or.inr rfl
  | step :: steps, index, size, e, h => by
    by_cases hsize : size = 1
    · rw [foldSteps, if_pos hsize] at h
      cases h
    · cases hstep : decodeStep step with
      | none =>
        obtain ⟨e', he', hval⟩ := foldSteps_undecodable (P := P) index leaf steps hsize hstep
        rw [he'] at h
        obtain rfl := Except.error.inj h
        exact Or.inl hval
      | some sx =>
        rw [foldSteps_cons hsize hstep] at h
        split at h
        · cases hrec : foldSteps P (halfAt index size).1 (halfAt index size).2 leaf steps with
          | error e' =>
            rw [hrec, error_bind] at h
            obtain rfl := Except.error.inj h
            exact foldSteps_error steps _ _ hrec
          | ok q =>
            rw [hrec] at h
            cases h
        · obtain rfl := Except.error.inj h
          exact Or.inl rfl

/-- A walk that succeeds took steps along the turns of the position, and climbed. -/
theorem foldSteps_sound {b : Bytes} : ∀ (steps : List ProofStep) (index size : ℕ) {d : Digest}
    {rest : List ProofStep}, 0 < size →
      foldSteps P index size (leafDigest P b) steps = .ok (d, rest) →
        ∃ front dec, steps = front ++ rest ∧ front.mapM decodeStep = some dec ∧
          dec.map Prod.fst = turns splitter index size ∧ d = climb (scheme P) b dec
  | [], index, size, d, rest, _, h => by
    unfold foldSteps at h
    split at h
    · rename_i hone
      obtain ⟨rfl, rfl⟩ := Prod.mk.inj (Except.ok.inj h)
      exact ⟨[], [], rfl, rfl, by rw [turns_of_le_one _ (le_of_eq hone)]; rfl, rfl⟩
    · cases h
  | step :: steps, index, size, d, rest, hpos, h => by
    by_cases hsize : size = 1
    · -- at a leaf the walk stops and leaves the other steps
      rw [foldSteps, if_pos hsize] at h
      obtain ⟨rfl, rfl⟩ := Prod.mk.inj (Except.ok.inj h)
      exact ⟨[], [], rfl, rfl, by rw [turns_of_le_one _ (le_of_eq hsize)]; rfl, rfl⟩
    have htwo : 2 ≤ size := by omega
    cases hstep : decodeStep step with
    | none =>
      obtain ⟨e', he', -⟩ := foldSteps_undecodable (P := P) index (leafDigest P b) steps
        hsize hstep
      rw [he'] at h
      cases h
    | some sx =>
      obtain ⟨s, x⟩ := sx
      obtain ⟨hturn, d', hrec, rfl⟩ := (foldSteps_cons_ok hsize hstep).mp h
      obtain ⟨front, dec, rfl, hdec, hturns, rfl⟩ :=
        foldSteps_sound steps _ _ (halfAt_pos index htwo) hrec
      refine ⟨step :: front, (s, x) :: dec, rfl, by simp [hstep, hdec], ?_, ?_⟩
      · rw [List.map_cons, hturns, turns_eq_cons index htwo, hturn]
      · rw [climb_cons]

/-- Steps along the turns of a position are walked to the end. -/
theorem foldSteps_complete {b : Bytes} : ∀ (steps : List ProofStep) (index size : ℕ)
    {dec : List (Side × Bytes)}, 0 < size → steps.mapM decodeStep = some dec →
      dec.map Prod.fst = turns splitter index size →
        foldSteps P index size (leafDigest P b) steps = .ok (climb (scheme P) b dec, [])
  | [], index, size, dec, hpos, hdec, hturns => by
    obtain rfl : [] = dec := Option.some.inj hdec
    -- no turns are left only at a leaf
    have hone : size = 1 := by
      by_contra hsize
      rw [turns_eq_cons index (by omega)] at hturns
      cases hturns
    rw [foldSteps, if_pos hone]
    rfl
  | step :: steps, index, size, dec, hpos, hdec, hturns => by
    simp only [List.mapM_cons, Option.bind_eq_bind, Option.bind_eq_some_iff, Option.pure_def,
      Option.some.injEq] at hdec
    obtain ⟨⟨s, x⟩, hstep, dec', hdec', rfl⟩ := hdec
    have htwo : 2 ≤ size := by
      by_contra hsize
      rw [turns_of_le_one _ (by omega)] at hturns
      cases hturns
    rw [turns_eq_cons index htwo] at hturns
    obtain ⟨hturn, hturns'⟩ := List.cons.inj hturns
    have hrec := foldSteps_complete (b := b) steps _ _ (halfAt_pos index htwo) hdec' hturns'
    exact (foldSteps_cons_ok (by omega) hstep).mpr ⟨hturn, _, hrec, climb_cons b s x dec'⟩

/-! ### Folding and verifying a proof -/

/-- The sides and the bytes of a proof's path, from the root down. -/
def InclusionProof.decoded (p : InclusionProof) : Option (List (Side × Bytes)) :=
  p.path.reverse.mapM decodeStep

/-- **Folding** succeeds exactly on the turns of `(seq, size)`, and climbs. -/
theorem fold_eq_ok_iff {p : InclusionProof} {r : PyStr} :
    p.fold P = .ok r ↔ 0 ≤ p.seq ∧ p.seq < p.size ∧ ∃ b dec, fromHex? p.leaf = some b ∧
      p.decoded = some dec ∧ dec.map Prod.fst = turns splitter p.seq.toNat p.size.toNat ∧
        r = (climb (scheme P) b dec).hex := by
  unfold InclusionProof.fold InclusionProof.decoded
  by_cases hsize : p.size < 1
  · rw [if_pos hsize]
    constructor
    · intro h; cases h
    · rintro ⟨h0, h1, -⟩; omega
  by_cases hrange : ¬(0 ≤ p.seq ∧ p.seq < p.size)
  · rw [if_neg hsize, if_pos hrange]
    constructor
    · intro h; cases h
    · rintro ⟨h0, h1, -⟩; exact absurd ⟨h0, h1⟩ hrange
  rw [if_neg hsize, if_neg hrange]
  rw [not_not] at hrange
  have hpos : 0 < p.size.toNat := by omega
  constructor
  · intro h
    refine ⟨hrange.1, hrange.2, ?_⟩
    cases hleaf : fromHex? p.leaf with
    | none => simp [leafHash, fromHex, hleaf] at h
    | some b =>
      rw [leafHash_eq hleaf, ok_bind] at h
      cases hfold : foldSteps P p.seq.toNat p.size.toNat (leafDigest P b) p.path.reverse with
      | error e =>
        rw [hfold] at h
        cases h
      | ok q =>
        obtain ⟨d, rest⟩ := q
        simp only [hfold] at h
        split at h
        · rename_i hrest
          obtain rfl : rest = [] := by simpa using hrest
          -- all steps were used, so the path decodes as a whole
          obtain ⟨front, dec, hfront, hdec, hturns, hd⟩ := foldSteps_sound _ _ _ hpos hfold
          rw [List.append_nil] at hfront
          rw [← hfront] at hdec
          exact ⟨b, dec, rfl, hdec, hturns, by rw [← hd]; exact (Except.ok.inj h).symm⟩
        · cases h
  · rintro ⟨-, -, b, dec, hleaf, hdec, hturns, rfl⟩
    rw [leafHash_eq hleaf, ok_bind, foldSteps_complete _ _ _ hpos hdec hturns]
    rfl

/-- Folding fails with a plain `ValueError` only. -/
theorem fold_error_cls {p : InclusionProof} {e : PyError} (h : p.fold P = .error e) :
    e.cls = .valueError := by
  unfold InclusionProof.fold at h
  split at h
  · obtain rfl := Except.error.inj h; rfl
  split at h
  · obtain rfl := Except.error.inj h; rfl
  split at h
  · rename_i e' herr
    -- the two classes that `fold` catches are the only ones that arise
    have hcls : e'.isValueError = true ∨ e'.cls = .indexError := by
      cases hleaf : fromHex p.leaf with
      | error e'' =>
        rw [leafHash, hleaf, error_bind, error_bind] at herr
        obtain rfl := Except.error.inj herr
        exact Or.inl (fromHex_error_isValueError hleaf)
      | ok b =>
        rw [leafHash, hleaf, ok_bind, pure_eq_ok, ok_bind] at herr
        exact foldSteps_error _ _ _ herr
    obtain rfl := Except.error.inj h
    have hcaught : (e'.isValueError || e'.cls == .indexError) = true := by
      rcases hcls with hval | hidx
      · simp [hval]
      · simp [hidx]
    rw [malformedProof, if_pos hcaught]
    rfl
  · split at h
    · cases h
    · obtain rfl := Except.error.inj h; rfl

theorem fold_error {p : InclusionProof} {e : PyError} (h : p.fold P = .error e) :
    e.isValueError = true := by
  rw [PyError.isValueError, fold_error_cls h]

/-- A proof verifies against a root when it folds to its lower-case text. -/
theorem verify_eq_true_iff {p : InclusionProof} {root : PyStr} :
    p.verify P (some root) = .ok true ↔ p.fold P = .ok (lower root) := by
  simp only [InclusionProof.verify, Option.getD_some]
  cases hfold : p.fold P with
  | ok r => simp
  | error e => simp [fold_error hfold]

/-- **The prover's proof**, field by field. -/
theorem merkleProof_eq {hs : List PyStr} {bs : List Bytes} (h : Decodes hs bs) (hbs : bs ≠ [])
    {i : ℕ} (hi : i < hs.length) (hi' : i < bs.length) :
    ∃ ds, (treeOf bs hbs).openAt (scheme P) (turns splitter i hs.length) = some (bs[i], ds) ∧
      merkleProof P hs i = .ok {
        seq := i
        size := hs.length
        leaf := hs[i]
        root := ((treeOf bs hbs).root (scheme P)).hex
        path := (List.zipWith siblingStep (turns splitter i hs.length) ds).reverse } := by
  obtain ⟨ds, hopen, hcollect⟩ := collect_eq (P := P) bs hbs _ le_rfl i hi'
  have hturns := congrArg (turns splitter i) h.length_eq
  rw [hturns] at hopen hcollect
  refine ⟨ds, hopen, ?_⟩
  rw [merkleProof, dif_pos ⟨by omega, by omega⟩]
  simp only [mapM_leafHash h, ok_bind, List.length_map, Int.toNat_natCast, hcollect,
    subtreeRoot_eq bs hbs]
  rfl

end AuditChain
