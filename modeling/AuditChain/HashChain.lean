/-
AuditChain/HashChain.lean

Linked chains, over any kind of record.

A record carries a position, its own hash and the hash of its predecessor.  A
list of records is chained when the positions count up and every record names
the hash of the one before it.

The one fact of substance is `agree_backwards`: if equal hashes mean equal
contents, and the contents include the link, then two chains that meet in one
hash agree on everything in front of it.
-/
import Mathlib.Data.Int.Basic
import Mathlib.Data.List.Basic
import Mathlib.Tactic.Tauto

namespace HashChain

/-- What a chain sees of its records. -/
structure Links (R H : Type*) where
  seq : R → ℤ
  prev : R → H
  hash : R → H

variable {R H : Type*} (K : Links R H)

/-- The records count up from `n`, and link to each other and to `h`. -/
def Chained : ℕ → H → List R → Prop
  | _, _, [] => True
  | n, h, r :: rs => K.seq r = n ∧ K.prev r = h ∧ Chained (n + 1) (K.hash r) rs

/-- The hash that the next record has to name. -/
def endHash (h : H) : List R → H
  | [] => h
  | r :: rs => endHash (K.hash r) rs

variable {K}

@[simp] theorem chained_nil (n : ℕ) (h : H) : Chained K n h [] := trivial

@[simp] theorem chained_cons {n : ℕ} {h : H} {r : R} {rs : List R} :
    Chained K n h (r :: rs) ↔ K.seq r = n ∧ K.prev r = h ∧ Chained K (n + 1) (K.hash r) rs :=
  Iff.rfl

@[simp] theorem endHash_nil (h : H) : endHash K h [] = h := rfl

@[simp] theorem endHash_cons (h : H) (r : R) (rs : List R) :
    endHash K h (r :: rs) = endHash K (K.hash r) rs := rfl

/-- The hash at the end is that of the last record, if there is one. -/
theorem endHash_eq_getLast (h : H) (rs : List R) :
    endHash K h rs = (rs.getLast?.map K.hash).getD h := by
  induction rs generalizing h with
  | nil => rfl
  | cons r rs ih =>
    rw [endHash_cons, ih, List.getLast?_cons]
    cases rs.getLast? <;> rfl

/-- Chains are put together end to end. -/
theorem chained_append {n : ℕ} {h : H} {xs ys : List R} :
    Chained K n h (xs ++ ys) ↔
      Chained K n h xs ∧ Chained K (n + xs.length) (endHash K h xs) ys := by
  induction xs generalizing n h with
  | nil => simp
  | cons x xs ih =>
    have hlen : n + 1 + xs.length = n + (xs.length + 1) := by omega
    rw [List.cons_append, chained_cons, chained_cons, ih, endHash_cons, List.length_cons, hlen]
    tauto

theorem Chained.seq_getElem {n : ℕ} {h : H} {rs : List R} (hc : Chained K n h rs) :
    ∀ i (hi : i < rs.length), K.seq rs[i] = (n + i : ℕ) := by
  induction rs generalizing n h with
  | nil => intro i hi; simp at hi
  | cons r rs ih =>
    intro i hi
    obtain ⟨hseq, -, hrest⟩ := hc
    cases i with
    | zero => exact hseq
    | succ i =>
      have hlen : n + 1 + i = n + (i + 1) := by omega
      rw [List.getElem_cons_succ, ih hrest i (by simpa using hi), hlen]

theorem Chained.prev_head {n : ℕ} {h : H} {rs : List R} (hc : Chained K n h rs)
    (hi : 0 < rs.length) : K.prev rs[0] = h := by
  cases rs with
  | nil => simp at hi
  | cons r rs => exact hc.2.1

theorem Chained.prev_getElem {n : ℕ} {h : H} {rs : List R} (hc : Chained K n h rs) :
    ∀ i (hi : i + 1 < rs.length), K.prev rs[i + 1] = K.hash rs[i] := by
  induction rs generalizing n h with
  | nil => intro i hi; simp at hi
  | cons r rs ih =>
    intro i hi
    obtain ⟨-, -, hrest⟩ := hc
    cases i with
    | zero =>
      simp only [List.getElem_cons_succ, List.getElem_cons_zero]
      exact hrest.prev_head (by simpa using hi)
    | succ i => simpa using ih hrest i (by simpa using hi)

/-- The number that follows a record of the chain, or its start. -/
def nextSeq (K : Links R H) (last : Option R) : ℤ := (last.map fun r => K.seq r + 1).getD 0

/-- A number that follows the chain somewhere is taken, or it is the length of the chain. -/
theorem Chained.nextSeq_eq_length {h : H} {xs : List R} (hxs : Chained K 0 h xs)
    {last : Option R} (hlast : ∀ r, last = some r → r ∈ xs)
    (hnew : ∀ x ∈ xs, K.seq x ≠ nextSeq K last) : nextSeq K last = xs.length := by
  have hseq := hxs.seq_getElem
  simp only [Nat.zero_add] at hseq
  obtain ⟨n, hn, hle⟩ : ∃ n : ℕ, nextSeq K last = n ∧ n ≤ xs.length := by
    cases last with
    | none => exact ⟨0, rfl, Nat.zero_le _⟩
    | some r =>
      obtain ⟨i, hi, rfl⟩ := List.getElem_of_mem (hlast r rfl)
      refine ⟨i + 1, ?_, hi⟩
      show K.seq xs[i] + 1 = _
      rw [hseq i hi]
      rfl
  rw [hn]
  by_contra hne
  have hlt : n < xs.length := lt_of_le_of_ne hle fun heq => hne (by rw [heq])
  exact hnew _ (List.getElem_mem hlt) (by rw [hseq n hlt, hn])

/-- What is followed by the length of the chain is its end. -/
theorem Chained.eq_getLast? {h : H} {xs : List R} (hxs : Chained K 0 h xs) {last : Option R}
    (hlast : ∀ r, last = some r → r ∈ xs) (hlength : nextSeq K last = xs.length) :
    last = xs.getLast? := by
  have hseq := hxs.seq_getElem
  simp only [Nat.zero_add] at hseq
  cases last with
  | none =>
    have hstart : (0 : ℤ) = xs.length := hlength
    have hzero : xs.length = 0 := by omega
    rw [List.length_eq_zero_iff.mp hzero]
    rfl
  | some r =>
    obtain ⟨i, hi, rfl⟩ := List.getElem_of_mem (hlast r rfl)
    have hend : K.seq xs[i] + 1 = xs.length := hlength
    rw [hseq i hi] at hend
    have hi' : i = xs.length - 1 := by omega
    rw [List.getLast?_eq_getElem?, ← hi', List.getElem?_eq_getElem hi]

/-- **Agreement runs backwards.**  Two chains with one hash in common at position `k`
agree up to `k`, if records of equal hashes are the same, link included. -/
theorem agree_backwards {Same : R → R → Prop} {n : ℕ} {h : H} {xs ys : List R}
    (hxs : Chained K n h xs) (hys : Chained K n h ys)
    (hsame : ∀ x ∈ xs, ∀ y ∈ ys, K.hash x = K.hash y → Same x y)
    (hprev : ∀ x y, Same x y → K.prev x = K.prev y) :
    ∀ k (hx : k < xs.length) (hy : k < ys.length), K.hash xs[k] = K.hash ys[k] →
      ∀ i (hi : i ≤ k), K.hash (xs[i]) = K.hash (ys[i]) ∧ Same (xs[i]) (ys[i]) := by
  intro k
  induction k with
  | zero =>
    intro hx hy hk i hi
    obtain rfl : i = 0 := by omega
    exact ⟨hk, hsame _ (List.getElem_mem hx) _ (List.getElem_mem hy) hk⟩
  | succ k ih =>
    intro hx hy hk i hi
    have hlast := hsame _ (List.getElem_mem hx) _ (List.getElem_mem hy) hk
    have hlink : K.hash xs[k] = K.hash ys[k] := by
      rw [← hxs.prev_getElem k hx, ← hys.prev_getElem k hy]
      exact hprev _ _ hlast
    rcases Nat.lt_or_ge i (k + 1) with hlt | hge
    · exact ih (by omega) (by omega) hlink i (by omega)
    · obtain rfl : i = k + 1 := by omega
      exact ⟨hk, hlast⟩

end HashChain
