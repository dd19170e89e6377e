/-
AuditChain/HashTree.lean

Binary hash trees, over any hash.

A tree has values at its leaves.  Its root hash is computed bottom-up; a path
proves a leaf by giving, at every node on the way, the sibling and the side it
sits on.  The values of a path are raw: a prover may put anything there, not
only a digest.

Two facts carry everything else, both from the absence of a collision among the
strings actually hashed:

    root_inj             equal roots, equal trees (shape included)
    openAt_of_climb      a path that climbs to the root of `t` is a path of `t`

The second half is about trees over lists, split at a point that depends on the
length only.  A position then is a sequence of turns, and the turns that lead to
a leaf are exactly those of some position (`turns_of_openAt`).
-/
import Mathlib.Data.Set.Function
import Mathlib.Data.List.Basic

namespace HashTree

/-- A binary tree with values at the leaves. -/
inductive HTree (α : Type*)
  | leaf (a : α)
  | node (l r : HTree α)

/-- How trees are hashed: the strings hashed for leaves and for nodes.  A digest
enters a node's string as a raw value; the two equations for nodes say that the
string of a proper node can be read from either end. -/
structure Scheme (α D X Pre : Type*) where
  hash : Pre → D
  raw : D → X
  leafPre : α → Pre
  nodePre : X → X → Pre
  leafPre_inj : ∀ a b, leafPre a = leafPre b → a = b
  leaf_ne_node : ∀ a x y, leafPre a ≠ nodePre x y
  node_left : ∀ d x e f, nodePre (raw d) x = nodePre (raw e) (raw f) → d = e ∧ x = raw f
  node_right : ∀ x d e f, nodePre x (raw d) = nodePre (raw e) (raw f) → x = raw e ∧ d = f

variable {α D X Pre : Type*}

namespace HTree

/-- The root hash. -/
def root (S : Scheme α D X Pre) : HTree α → D
  | leaf a => S.hash (S.leafPre a)
  | node l r => S.hash (S.nodePre (S.raw (l.root S)) (S.raw (r.root S)))

/-- The strings hashed for the root. -/
def inputs (S : Scheme α D X Pre) : HTree α → List Pre
  | leaf a => [S.leafPre a]
  | node l r => S.nodePre (S.raw (l.root S)) (S.raw (r.root S)) :: (l.inputs S ++ r.inputs S)

/-- The values at the leaves, from the left. -/
def leaves : HTree α → List α
  | leaf a => [a]
  | node l r => l.leaves ++ r.leaves

end HTree

/-! ### Equal roots -/

/-- The string that the root of a tree is the hash of. -/
def HTree.topPre (S : Scheme α D X Pre) : HTree α → Pre
  | .leaf a => S.leafPre a
  | .node l r => S.nodePre (S.raw (l.root S)) (S.raw (r.root S))

theorem HTree.root_eq_hash (S : Scheme α D X Pre) (t : HTree α) :
    t.root S = S.hash (t.topPre S) := by
  cases t <;> rfl

theorem HTree.topPre_mem (S : Scheme α D X Pre) (t : HTree α) : t.topPre S ∈ t.inputs S := by
  cases t <;> exact List.mem_cons_self

theorem HTree.inputs_left (S : Scheme α D X Pre) (l r : HTree α) {p : Pre}
    (hp : p ∈ l.inputs S) : p ∈ (HTree.node l r).inputs S :=
  List.mem_cons_of_mem _ (List.mem_append_left _ hp)

theorem HTree.inputs_right (S : Scheme α D X Pre) (l r : HTree α) {p : Pre}
    (hp : p ∈ r.inputs S) : p ∈ (HTree.node l r).inputs S :=
  List.mem_cons_of_mem _ (List.mem_append_right _ hp)

/-- **Equal roots, equal trees**, unless two of the hashed strings collide. -/
theorem root_inj (S : Scheme α D X Pre) : ∀ (t u : HTree α),
    Set.InjOn S.hash { p | p ∈ t.inputs S ∨ p ∈ u.inputs S } → t.root S = u.root S → t = u
  | t, u, hcoll, h => by
    have htop : t.topPre S = u.topPre S := by
      rw [t.root_eq_hash, u.root_eq_hash] at h
      exact hcoll (Or.inl (t.topPre_mem S)) (Or.inr (u.topPre_mem S)) h
    match t, u with
    | .leaf a, .leaf b => rw [S.leafPre_inj a b htop]
    | .leaf a, .node l r => exact absurd htop (S.leaf_ne_node _ _ _)
    | .node l r, .leaf b => exact absurd htop.symm (S.leaf_ne_node _ _ _)
    | .node l r, .node l' r' =>
      obtain ⟨hl, -⟩ := S.node_left _ _ _ _ htop
      obtain ⟨-, hr⟩ := S.node_right _ _ _ _ htop
      -- the strings of the children are among those of the nodes
      have hleft : l = l' := root_inj S l l'
        (hcoll.mono fun _ => Or.imp (HTree.inputs_left S l r) (HTree.inputs_left S l' r')) hl
      have hright : r = r' := root_inj S r r'
        (hcoll.mono fun _ => Or.imp (HTree.inputs_right S l r) (HTree.inputs_right S l' r')) hr
      rw [hleft, hright]

/-! ### Paths -/

/-- Where a sibling sits. -/
inductive Side
  | left
  | right
  deriving DecidableEq

/-- Climb from a leaf: the steps are listed from the root down. -/
def climb (S : Scheme α D X Pre) (a : α) : List (Side × X) → D
  | [] => S.hash (S.leafPre a)
  | (.right, x) :: steps => S.hash (S.nodePre (S.raw (climb S a steps)) x)
  | (.left, x) :: steps => S.hash (S.nodePre x (S.raw (climb S a steps)))

/-- The strings hashed on a climb. -/
def climbInputs (S : Scheme α D X Pre) (a : α) : List (Side × X) → List Pre
  | [] => [S.leafPre a]
  | (.right, x) :: steps => S.nodePre (S.raw (climb S a steps)) x :: climbInputs S a steps
  | (.left, x) :: steps => S.nodePre x (S.raw (climb S a steps)) :: climbInputs S a steps

/-- Follow a path down: the leaf it ends at and the siblings passed by. -/
def HTree.openAt (S : Scheme α D X Pre) : HTree α → List Side → Option (α × List D)
  | leaf a, [] => some (a, [])
  | node l r, .right :: ss => (l.openAt S ss).map fun q => (q.1, r.root S :: q.2)
  | node l r, .left :: ss => (r.openAt S ss).map fun q => (q.1, l.root S :: q.2)
  | _, _ => none

theorem HTree.length_openAt (S : Scheme α D X Pre) : ∀ (t : HTree α) (ss : List Side)
    {a : α} {ds : List D}, t.openAt S ss = some (a, ds) → ds.length = ss.length
  | .leaf b, [], a, ds, h => by
    obtain ⟨-, rfl⟩ := Prod.mk.inj (Option.some.inj h)
    rfl
  | .leaf _, _ :: _, _, _, h => by cases h
  | .node _ _, [], _, _, h => by cases h
  | .node l r, .right :: ss, a, ds, h => by
    obtain ⟨⟨b, es⟩, hq, heq⟩ := Option.map_eq_some_iff.mp h
    obtain ⟨-, rfl⟩ := Prod.mk.inj heq
    simp only [List.length_cons, length_openAt S l ss hq]
  | .node l r, .left :: ss, a, ds, h => by
    obtain ⟨⟨b, es⟩, hq, heq⟩ := Option.map_eq_some_iff.mp h
    obtain ⟨-, rfl⟩ := Prod.mk.inj heq
    simp only [List.length_cons, length_openAt S r ss hq]

/-- **Completeness**: the siblings of a leaf climb to the root. -/
theorem climb_openAt (S : Scheme α D X Pre) : ∀ (t : HTree α) (ss : List Side) {a : α}
    {ds : List D}, t.openAt S ss = some (a, ds) →
      climb S a (ss.zip (ds.map S.raw)) = t.root S
  | .leaf b, [], a, ds, h => by
    obtain ⟨rfl, rfl⟩ := Prod.mk.inj (Option.some.inj h)
    rfl
  | .leaf _, _ :: _, _, _, h => by cases h
  | .node _ _, [], _, _, h => by cases h
  | .node l r, .right :: ss, a, ds, h => by
    obtain ⟨⟨b, es⟩, hq, heq⟩ := Option.map_eq_some_iff.mp h
    obtain ⟨rfl, rfl⟩ := Prod.mk.inj heq
    simp only [List.map_cons, List.zip_cons_cons, climb, HTree.root, climb_openAt S l ss hq]
  | .node l r, .left :: ss, a, ds, h => by
    obtain ⟨⟨b, es⟩, hq, heq⟩ := Option.map_eq_some_iff.mp h
    obtain ⟨rfl, rfl⟩ := Prod.mk.inj heq
    simp only [List.map_cons, List.zip_cons_cons, climb, HTree.root, climb_openAt S r ss hq]

/-- The string that a climb ends with. -/
def climbPre (S : Scheme α D X Pre) (a : α) : List (Side × X) → Pre
  | [] => S.leafPre a
  | (.right, x) :: steps => S.nodePre (S.raw (climb S a steps)) x
  | (.left, x) :: steps => S.nodePre x (S.raw (climb S a steps))

theorem climb_eq_hash (S : Scheme α D X Pre) (a : α) (steps : List (Side × X)) :
    climb S a steps = S.hash (climbPre S a steps) := by
  rcases steps with - | ⟨⟨- | -⟩, x, steps⟩ <;> rfl

theorem climbPre_mem (S : Scheme α D X Pre) (a : α) (steps : List (Side × X)) :
    climbPre S a steps ∈ climbInputs S a steps := by
  rcases steps with - | ⟨⟨- | -⟩, x, steps⟩ <;> exact List.mem_cons_self

theorem climbInputs_cons (S : Scheme α D X Pre) (a : α) (step : Side × X)
    (steps : List (Side × X)) {p : Pre} (hp : p ∈ climbInputs S a steps) :
    p ∈ climbInputs S a (step :: steps) := by
  rcases step with ⟨- | -, x⟩ <;> exact List.mem_cons_of_mem _ hp

/-- **Soundness**: a climb that ends at the root of `t` went up a path of `t`,
unless two of the hashed strings collide.  The siblings given are then those of
the tree, although nothing ever checked that they are digests. -/
theorem openAt_of_climb (S : Scheme α D X Pre) (a : α) : ∀ (t : HTree α) (steps : List (Side × X)),
    Set.InjOn S.hash { p | p ∈ t.inputs S ∨ p ∈ climbInputs S a steps } →
      climb S a steps = t.root S →
        ∃ ds, t.openAt S (steps.map Prod.fst) = some (a, ds) ∧
          steps.map Prod.snd = ds.map S.raw
  | t, steps, hcoll, h => by
    have htop : climbPre S a steps = t.topPre S := by
      rw [climb_eq_hash, t.root_eq_hash] at h
      exact hcoll (Or.inr (climbPre_mem S a steps)) (Or.inl (t.topPre_mem S)) h
    -- a leaf cannot pass for a node, so tree and climb end together
    match t, steps with
    | .leaf b, [] =>
      obtain rfl := S.leafPre_inj _ _ htop
      exact ⟨[], rfl, rfl⟩
    | .leaf b, (.right, x) :: steps => exact absurd htop.symm (S.leaf_ne_node _ _ _)
    | .leaf b, (.left, x) :: steps => exact absurd htop.symm (S.leaf_ne_node _ _ _)
    | .node l r, [] => exact absurd htop (S.leaf_ne_node _ _ _)
    | .node l r, (.right, x) :: steps =>
      -- the string of `node l r` starts with a digest, so it can be cut there
      obtain ⟨hd, hx⟩ := S.node_left _ _ _ _ htop
      obtain ⟨ds, hopen, hsib⟩ := openAt_of_climb S a l steps
        (hcoll.mono fun _ => Or.imp (HTree.inputs_left S l r) (climbInputs_cons S a _ steps)) hd
      exact ⟨r.root S :: ds, by simp [HTree.openAt, hopen], by simp [hx, hsib]⟩
    | .node l r, (.left, x) :: steps =>
      -- and it ends with one
      obtain ⟨hx, hd⟩ := S.node_right _ _ _ _ htop
      obtain ⟨ds, hopen, hsib⟩ := openAt_of_climb S a r steps
        (hcoll.mono fun _ => Or.imp (HTree.inputs_right S l r) (climbInputs_cons S a _ steps)) hd
      exact ⟨l.root S :: ds, by simp [HTree.openAt, hopen], by simp [hx, hsib]⟩

/-! ### Trees over lists -/

/-- Where to split a list of a given length: strictly inside. -/
structure Splitter where
  point : ℕ → ℕ
  pos : ∀ n, 2 ≤ n → 0 < point n
  lt : ∀ n, 2 ≤ n → point n < n

variable (sp : Splitter)

theorem take_ne_nil {l : List α} (h : 2 ≤ l.length) : l.take (sp.point l.length) ≠ [] := by
  have := sp.pos l.length h
  rw [← List.length_pos_iff, List.length_take]
  omega

theorem drop_ne_nil {l : List α} (h : 2 ≤ l.length) : l.drop (sp.point l.length) ≠ [] := by
  have := sp.lt l.length h
  rw [← List.length_pos_iff, List.length_drop]
  omega

/-- The tree over a list. -/
def ofList : (l : List α) → l ≠ [] → HTree α
  | [a], _ => .leaf a
  | a :: b :: l, _ =>
    .node
      (ofList ((a :: b :: l).take (sp.point (a :: b :: l).length)) (take_ne_nil sp (by simp)))
      (ofList ((a :: b :: l).drop (sp.point (a :: b :: l).length)) (drop_ne_nil sp (by simp)))
termination_by l => l.length
decreasing_by
  · have := sp.lt (a :: b :: l).length (by simp)
    rw [List.length_take]
    omega
  · have := sp.pos (a :: b :: l).length (by simp)
    rw [List.length_drop]
    have : 0 < (a :: b :: l).length := by simp
    omega

theorem ofList_singleton (a : α) (h : [a] ≠ []) : ofList sp [a] h = .leaf a := by
  rw [ofList]

theorem ofList_split {l : List α} (hl : l ≠ []) (h : 2 ≤ l.length) :
    ofList sp l hl = .node (ofList sp (l.take (sp.point l.length)) (take_ne_nil sp h))
      (ofList sp (l.drop (sp.point l.length)) (drop_ne_nil sp h)) := by
  match l, h with
  | a :: b :: l, _ => rw [ofList]

/-- Induction along the splits. -/
theorem split_induction {motive : (l : List α) → l ≠ [] → Prop}
    (single : ∀ a h, motive [a] h)
    (split : ∀ l hl (h : 2 ≤ l.length), motive (l.take (sp.point l.length)) (take_ne_nil sp h) →
      motive (l.drop (sp.point l.length)) (drop_ne_nil sp h) → motive l hl)
    (l : List α) (hl : l ≠ []) : motive l hl := by
  induction hn : l.length using Nat.strong_induction_on generalizing l with
  | _ n ih =>
    subst hn
    match l, hl with
    | [a], hl => exact single a hl
    | a :: b :: l, hl =>
      have h : 2 ≤ (a :: b :: l).length := by simp
      have hpos := sp.pos _ h
      have hlt := sp.lt _ h
      refine split _ hl h (ih _ ?_ _ _ rfl) (ih _ ?_ _ _ rfl)
      · rw [List.length_take]; omega
      · rw [List.length_drop]; omega

theorem leaves_ofList (l : List α) (hl : l ≠ []) : (ofList sp l hl).leaves = l := by
  induction l, hl using split_induction sp with
  | single a _ => rw [ofList_singleton, HTree.leaves]
  | split l hl h ihl ihr =>
    rw [ofList_split sp hl h, HTree.leaves, ihl, ihr, List.take_append_drop]

/-- The turns from the root to position `i` of `n`: where the sibling sits. -/
def turns (i n : ℕ) : List Side :=
  if _h : 2 ≤ n then
    if i < sp.point n then .right :: turns i (sp.point n)
    else .left :: turns (i - sp.point n) (n - sp.point n)
  else []
termination_by n
decreasing_by
  · exact sp.lt n ‹_›
  · have := sp.pos n ‹_›
    omega

theorem turns_of_le_one {i n : ℕ} (h : n ≤ 1) : turns sp i n = [] := by
  rw [turns, dif_neg (by omega)]

theorem turns_right {i n : ℕ} (h : 2 ≤ n) (hi : i < sp.point n) :
    turns sp i n = .right :: turns sp i (sp.point n) := by
  rw [turns, dif_pos h, if_pos hi]

theorem turns_left {i n : ℕ} (h : 2 ≤ n) (hi : ¬i < sp.point n) :
    turns sp i n = .left :: turns sp (i - sp.point n) (n - sp.point n) := by
  rw [turns, dif_pos h, if_neg hi]

/-- At one size, the turns determine the position. -/
theorem turns_inj {n i j : ℕ} (hi : i < n) (hj : j < n) (h : turns sp i n = turns sp j n) :
    i = j := by
  induction n using Nat.strong_induction_on generalizing i j with
  | _ n ih =>
    by_cases hn : 2 ≤ n
    · have hlt := sp.lt n hn
      have hpos := sp.pos n hn
      by_cases hi' : i < sp.point n <;> by_cases hj' : j < sp.point n
      · rw [turns_right sp hn hi', turns_right sp hn hj'] at h
        exact ih _ hlt hi' hj' (List.cons.inj h).2
      · rw [turns_right sp hn hi', turns_left sp hn hj'] at h
        exact absurd (List.cons.inj h).1 (by decide)
      · rw [turns_left sp hn hi', turns_right sp hn hj'] at h
        exact absurd (List.cons.inj h).1 (by decide)
      · rw [turns_left sp hn hi', turns_left sp hn hj'] at h
        have := ih (n - sp.point n) (by omega) (by omega) (by omega) (List.cons.inj h).2
        omega
    · omega

/-- Whatever can be opened is the turns of a position, and shows its value. -/
theorem turns_of_openAt (S : Scheme α D X Pre) (l : List α) (hl : l ≠ []) :
    ∀ (ss : List Side) {a : α} {ds : List D},
      (ofList sp l hl).openAt S ss = some (a, ds) →
        ∃ i, ∃ hi : i < l.length, ss = turns sp i l.length ∧ a = l[i] := by
  induction l, hl using split_induction sp with
  | single b h =>
    intro ss a ds hopen
    rw [ofList_singleton] at hopen
    cases ss with
    | nil =>
      obtain ⟨rfl, -⟩ := Prod.mk.inj (Option.some.inj hopen)
      exact ⟨0, by simp, by rw [turns_of_le_one sp (by simp)], rfl⟩
    | cons s ss => cases hopen
  | split l hl h ihl ihr =>
    intro ss a ds hopen
    have hlt := sp.lt l.length h
    rw [ofList_split sp hl h] at hopen
    match ss with
    | [] => cases hopen
    | .right :: ss =>
      -- the position in the left part is the position in the whole
      have hlen : (l.take (sp.point l.length)).length = sp.point l.length := by
        rw [List.length_take]; omega
      obtain ⟨⟨b, es⟩, hq, heq⟩ := Option.map_eq_some_iff.mp hopen
      obtain ⟨rfl, -⟩ := Prod.mk.inj heq
      obtain ⟨i, hi, rfl, hval⟩ := ihl ss hq
      rw [hlen] at hi
      refine ⟨i, by omega, ?_, ?_⟩
      · rw [turns_right sp h hi, hlen]
      · rw [List.getElem_take] at hval
        exact hval
    | .left :: ss =>
      -- in the right part it is shifted by the split point
      have hlen : (l.drop (sp.point l.length)).length = l.length - sp.point l.length :=
        List.length_drop
      obtain ⟨⟨b, es⟩, hq, heq⟩ := Option.map_eq_some_iff.mp hopen
      obtain ⟨rfl, -⟩ := Prod.mk.inj heq
      obtain ⟨i, hi, rfl, hval⟩ := ihr ss hq
      rw [hlen] at hi
      refine ⟨sp.point l.length + i, by omega, ?_, ?_⟩
      · rw [turns_left sp h (by omega), hlen, Nat.add_sub_cancel_left]
      · rw [List.getElem_drop] at hval
        exact hval

end HashTree
