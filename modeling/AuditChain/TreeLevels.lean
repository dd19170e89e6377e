/-
AuditChain/TreeLevels.lean

The same tree from the leaves upwards.

`HTree.eval` combines the values at the leaves of a tree with any operation, top
down.  A list can also be combined level by level: adjacent values are paired
from the left, an unpaired last one is promoted unchanged, and so on until one
value is left (`bottomUp`).  Both give the same value when every list is split
at the largest power of two strictly below its length:

    bottomUp_eq    bottomUp op l = some ((ofList sp l).eval op)

The reason is that pairing does not look across a block of `2 ^ k` values for
the first `k` levels (`levelUp_iterate_append`).

Such a tree has logarithmic depth, however unbalanced its halves are:

    length_turns_le         no position is deeper than the least `d` with n ≤ 2 ^ d
    lt_length_turns_zero    the first position is that deep
-/
import AuditChain.HashTree
import Mathlib.Algebra.Group.Nat.Defs
import Mathlib.Data.Nat.Log
import Mathlib.Logic.Function.Iterate

namespace HashTree

variable {α D X Pre β : Type*}

/-! ### From the root down -/

/-- The values at the leaves, combined along the tree. -/
def HTree.eval (op : β → β → β) : HTree β → β
  | leaf a => a
  | node l r => op (l.eval op) (r.eval op)

/-- The root hash combines the hashes of the leaves. -/
theorem root_ofList (S : Scheme α D X Pre) (sp : Splitter) (l : List α) (hl : l ≠ [])
    (hl' : l.map (fun a => S.hash (S.leafPre a)) ≠ []) :
    (ofList sp l hl).root S
      = (ofList sp (l.map fun a => S.hash (S.leafPre a)) hl').eval
          fun d e => S.hash (S.nodePre (S.raw d) (S.raw e)) := by
  induction l, hl using split_induction sp with
  | single a h =>
    rw [ofList_singleton]
    simp only [List.map_cons, List.map_nil, ofList_singleton]
    rfl
  | split l hl h ihl ihr =>
    have h' : 2 ≤ (l.map fun a => S.hash (S.leafPre a)).length := by rwa [List.length_map]
    rw [ofList_split sp hl h, ofList_split sp hl' h', HTree.root, HTree.eval]
    simp only [List.length_map, ← List.map_take, ← List.map_drop]
    rw [ihl, ihr]

/-! ### Level by level -/

/-- One level up: adjacent values are paired, an unpaired last one is promoted. -/
def levelUp (op : β → β → β) : List β → List β
  | a :: b :: l => op a b :: levelUp op l
  | l => l

theorem length_levelUp (op : β → β → β) :
    ∀ l : List β, (levelUp op l).length = (l.length + 1) / 2
  | [] => by simp [levelUp]
  | [_] => by simp [levelUp]
  | a :: b :: l => by
    rw [levelUp, List.length_cons, length_levelUp op l]
    simp only [List.length_cons]
    omega

/-- Level by level, until one value is left. -/
def bottomUp (op : β → β → β) : List β → Option β
  | [] => none
  | [a] => some a
  | a :: b :: l => bottomUp op (levelUp op (a :: b :: l))
termination_by l => l.length
decreasing_by
  rw [length_levelUp]
  simp only [List.length_cons]
  omega

/-- The value at the top does not change from level to level. -/
theorem bottomUp_levelUp (op : β → β → β) (l : List β) :
    bottomUp op (levelUp op l) = bottomUp op l := by
  match l with
  | [] => rfl
  | [a] => rfl
  | a :: b :: l => rw [bottomUp.eq_3]

theorem bottomUp_iterate (op : β → β → β) (l : List β) (k : ℕ) :
    bottomUp op ((levelUp op)^[k] l) = bottomUp op l := by
  induction k with
  | zero => rfl
  | succ k ih => rw [Function.iterate_succ_apply', bottomUp_levelUp, ih]

/-! ### Blocks -/

/-- Values are paired within a block of even length. -/
theorem levelUp_append (op : β → β → β) : ∀ (l r : List β), 2 ∣ l.length →
    levelUp op (l ++ r) = levelUp op l ++ levelUp op r
  | [], _, _ => rfl
  | [_], _, h => absurd (Nat.dvd_one.mp h) (by decide)
  | a :: b :: l, r, h => by
    have h' : 2 ∣ l.length := by
      simp only [List.length_cons] at h
      omega
    simp only [List.cons_append, levelUp, levelUp_append op l r h']

/-- **Blocks**: for `k` levels nothing passes the end of a block of `2 ^ k` values. -/
theorem levelUp_iterate_append (op : β → β → β) (k : ℕ) : ∀ l r : List β, 2 ^ k ∣ l.length →
    (levelUp op)^[k] (l ++ r) = (levelUp op)^[k] l ++ (levelUp op)^[k] r := by
  induction k with
  | zero => intro l r _; rfl
  | succ k ih =>
    intro l r h
    obtain ⟨c, hc⟩ := h
    rw [Nat.pow_succ, Nat.mul_right_comm] at hc
    have heven : 2 ∣ l.length := ⟨2 ^ k * c, by omega⟩
    have hhalf : 2 ^ k ∣ (levelUp op l).length := ⟨c, by rw [length_levelUp]; omega⟩
    rw [Function.iterate_succ_apply, Function.iterate_succ_apply, Function.iterate_succ_apply,
      levelUp_append op l r heven, ih _ _ hhalf]

/-! ### Equality -/

/-- The splits are at the largest power of two strictly inside. -/
def Splitter.Binary (sp : Splitter) : Prop :=
  ∀ k n, 2 ^ k < n → n ≤ 2 ^ (k + 1) → sp.point n = 2 ^ k

/-- After `k` levels a list of at most `2 ^ k` values is down to its tree's value. -/
theorem levelUp_iterate_eq (op : β → β → β) {sp : Splitter} (hsp : sp.Binary) (k : ℕ) :
    ∀ (l : List β) (hl : l ≠ []), l.length ≤ 2 ^ k →
      (levelUp op)^[k] l = [(ofList sp l hl).eval op] := by
  induction k with
  | zero =>
    intro l hl hle
    match l, hl, hle with
    | [a], hl, _ => rw [ofList_singleton]; rfl
    | _ :: _ :: _, _, hle =>
      simp only [List.length_cons] at hle
      omega
  | succ k ih =>
    intro l hl hle
    rw [Function.iterate_succ_apply']
    by_cases hshort : l.length ≤ 2 ^ k
    · -- a short list is done already, and its value is promoted
      rw [ih l hl hshort]
      rfl
    · -- a long one is two blocks, with one value each left to pair
      have hpoint := hsp k l.length (by omega) hle
      have htwo : 2 ≤ l.length := by
        have := Nat.one_le_two_pow (n := k)
        omega
      have hleft : (l.take (sp.point l.length)).length = 2 ^ k := by
        rw [List.length_take, hpoint]
        omega
      have hright : (l.drop (sp.point l.length)).length ≤ 2 ^ k := by
        rw [Nat.pow_succ] at hle
        rw [List.length_drop, hpoint]
        omega
      have hblocks := levelUp_iterate_append op k (l.take (sp.point l.length))
        (l.drop (sp.point l.length)) ⟨1, by omega⟩
      rw [List.take_append_drop, ih _ (take_ne_nil sp htwo) hleft.le,
        ih _ (drop_ne_nil sp htwo) hright] at hblocks
      rw [hblocks, ofList_split sp hl htwo]
      rfl

/-- **Bottom-up equals top-down.** -/
theorem bottomUp_eq (op : β → β → β) {sp : Splitter} (hsp : sp.Binary) (l : List β) (hl : l ≠ []) :
    bottomUp op l = some ((ofList sp l hl).eval op) := by
  rw [← bottomUp_iterate op l (Nat.clog 2 l.length),
    levelUp_iterate_eq op hsp _ l hl (Nat.le_pow_clog (by omega) _), bottomUp]

/-! ### Depth -/

/-- Every split is at a power of two, and neither part is larger. -/
theorem Splitter.Binary.exists_point {sp : Splitter} (hsp : sp.Binary) {n : ℕ} (h : 2 ≤ n) :
    ∃ k, sp.point n = 2 ^ k ∧ 2 ^ k < n ∧ n ≤ 2 ^ (k + 1) := by
  have hlo : 2 ^ Nat.log 2 (n - 1) ≤ n - 1 := Nat.pow_log_le_self 2 (by omega)
  have hhi : n - 1 < 2 ^ (Nat.log 2 (n - 1) + 1) := Nat.lt_pow_succ_log_self (by omega) _
  exact ⟨Nat.log 2 (n - 1), hsp _ n (by omega) (by omega), by omega, by omega⟩

/-- **Depth**: among at most `2 ^ d` leaves every position is at most `d` turns away. -/
theorem length_turns_le {sp : Splitter} (hsp : sp.Binary) (d : ℕ) :
    ∀ i n, n ≤ 2 ^ d → (turns sp i n).length ≤ d := by
  induction d with
  | zero =>
    intro i n hle
    rw [turns_of_le_one sp (by omega)]
    exact le_rfl
  | succ d ih =>
    intro i n hle
    by_cases hn : 2 ≤ n
    · obtain ⟨k, hpoint, hlo, hhi⟩ := hsp.exists_point hn
      have hk : k < d + 1 := (Nat.pow_lt_pow_iff_right (by omega)).mp (hlo.trans_le hle)
      have hpow : 2 ^ k ≤ 2 ^ d := Nat.pow_le_pow_right (by omega) (by omega)
      rw [Nat.pow_succ] at hhi
      by_cases hi : i < sp.point n
      · rw [turns_right sp hn hi, List.length_cons]
        exact Nat.succ_le_succ (ih _ _ (by omega))
      · rw [turns_left sp hn hi, List.length_cons]
        exact Nat.succ_le_succ (ih _ _ (by omega))
    · rw [turns_of_le_one sp (by omega)]
      exact Nat.zero_le _

/-- The first position is the deepest: with more than `2 ^ d` leaves it is more than `d`
turns away. -/
theorem lt_length_turns_zero {sp : Splitter} (hsp : sp.Binary) (d : ℕ) :
    ∀ n, 2 ^ d < n → d < (turns sp 0 n).length := by
  induction d with
  | zero =>
    intro n hlt
    rw [turns_right sp (by omega) (sp.pos n (by omega)), List.length_cons]
    exact Nat.succ_pos _
  | succ d ih =>
    intro n hlt
    have hone := Nat.one_le_two_pow (n := d + 1)
    have hn : 2 ≤ n := by omega
    obtain ⟨k, hpoint, hlo, hhi⟩ := hsp.exists_point hn
    have hk : d + 1 < k + 1 := (Nat.pow_lt_pow_iff_right (by omega)).mp (hlt.trans_le hhi)
    have hpow : 2 ^ d < 2 ^ k := (Nat.pow_lt_pow_iff_right (by omega)).mpr (by omega)
    rw [turns_right sp hn (sp.pos n hn), List.length_cons, hpoint]
    exact Nat.succ_lt_succ (ih _ hpow)

end HashTree
