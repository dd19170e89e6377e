/-
AuditChain/Sha256.lean

SHA-256 and HMAC-SHA256, executable.

Words are natural numbers below 2^32 and every operation is one the kernel
computes with numerals, so that a digest can be evaluated in a proof.  The
message schedule is a window of sixteen words that moves along with the rounds.
-/
import Mathlib.Data.List.Basic

namespace Sha256

/-- 2^32. -/
def wordSize : ℕ := 4294967296

/-- Rotate a word to the right. -/
def rotr (x n : ℕ) : ℕ := (x >>> n ||| x <<< (32 - n)) % wordSize

/-- The round constants. -/
def roundConstants : List ℕ :=
  [0x428a2f98, 0x71374491, 0xb5c0fbcf, 0xe9b5dba5, 0x3956c25b, 0x59f111f1, 0x923f82a4, 0xab1c5ed5,
   0xd807aa98, 0x12835b01, 0x243185be, 0x550c7dc3, 0x72be5d74, 0x80deb1fe, 0x9bdc06a7, 0xc19bf174,
   0xe49b69c1, 0xefbe4786, 0x0fc19dc6, 0x240ca1cc, 0x2de92c6f, 0x4a7484aa, 0x5cb0a9dc, 0x76f988da,
   0x983e5152, 0xa831c66d, 0xb00327c8, 0xbf597fc7, 0xc6e00bf3, 0xd5a79147, 0x06ca6351, 0x14292967,
   0x27b70a85, 0x2e1b2138, 0x4d2c6dfc, 0x53380d13, 0x650a7354, 0x766a0abb, 0x81c2c92e, 0x92722c85,
   0xa2bfe8a1, 0xa81a664b, 0xc24b8b70, 0xc76c51a3, 0xd192e819, 0xd6990624, 0xf40e3585, 0x106aa070,
   0x19a4c116, 0x1e376c08, 0x2748774c, 0x34b0bcb5, 0x391c0cb3, 0x4ed8aa4a, 0x5b9cca4f, 0x682e6ff3,
   0x748f82ee, 0x78a5636f, 0x84c87814, 0x8cc70208, 0x90befffa, 0xa4506ceb, 0xbef9a3f7, 0xc67178f2]

/-- The eight working variables. -/
structure State where
  a : ℕ
  b : ℕ
  c : ℕ
  d : ℕ
  e : ℕ
  f : ℕ
  g : ℕ
  h : ℕ
  deriving DecidableEq

/-- The initial hash value. -/
def initial : State :=
  ⟨0x6a09e667, 0xbb67ae85, 0x3c6ef372, 0xa54ff53a, 0x510e527f, 0x9b05688c, 0x1f83d9ab, 0x5be0cd19⟩

/-- One round with constant `k` and word `w`. -/
def State.round (s : State) (k w : ℕ) : State :=
  let sigma1 := rotr s.e 6 ^^^ rotr s.e 11 ^^^ rotr s.e 25
  let choice := (s.e &&& s.f) ^^^ ((wordSize - 1 - s.e) &&& s.g)
  let t1 := s.h + sigma1 + choice + k + w
  let sigma0 := rotr s.a 2 ^^^ rotr s.a 13 ^^^ rotr s.a 22
  let majority := (s.a &&& s.b) ^^^ (s.a &&& s.c) ^^^ (s.b &&& s.c)
  ⟨(t1 + sigma0 + majority) % wordSize, s.a, s.b, s.c, (s.d + t1) % wordSize, s.e, s.f, s.g⟩

/-- The word that enters the window. -/
def nextWord (window : List ℕ) : ℕ :=
  let w1 := window.getD 1 0
  let w14 := window.getD 14 0
  let sigma0 := rotr w1 7 ^^^ rotr w1 18 ^^^ w1 >>> 3
  let sigma1 := rotr w14 17 ^^^ rotr w14 19 ^^^ w14 >>> 10
  (window.getD 0 0 + sigma0 + window.getD 9 0 + sigma1) % wordSize

/-- The rounds of one block. -/
def rounds : List ℕ → List ℕ → State → State
  | [], _, s => s
  | k :: ks, window, s => rounds ks (window.drop 1 ++ [nextWord window]) (s.round k (window.getD 0 0))

/-- Componentwise addition. -/
def State.add (s t : State) : State :=
  ⟨(s.a + t.a) % wordSize, (s.b + t.b) % wordSize, (s.c + t.c) % wordSize, (s.d + t.d) % wordSize,
   (s.e + t.e) % wordSize, (s.f + t.f) % wordSize, (s.g + t.g) % wordSize, (s.h + t.h) % wordSize⟩

/-- Compress one block of sixteen words. -/
def compress (s : State) (block : List ℕ) : State := s.add (rounds roundConstants block s)

/-- Big-endian words of a byte string. -/
def wordsOf : List UInt8 → List ℕ
  | x :: y :: z :: w :: bytes =>
    (x.toNat <<< 24 + y.toNat <<< 16 + z.toNat <<< 8 + w.toNat) :: wordsOf bytes
  | _ => []

/-- The big-endian bytes of a word. -/
def wordBytes (w : ℕ) : List UInt8 :=
  [UInt8.ofNat (w >>> 24), UInt8.ofNat (w >>> 16), UInt8.ofNat (w >>> 8), UInt8.ofNat w]

/-- A message with its padding: one bit, zeros, the length in bits. -/
def padded (message : List UInt8) : List UInt8 :=
  message ++ (0x80 : UInt8) :: List.replicate ((119 - message.length % 64) % 64) (0 : UInt8)
    ++ wordBytes ((8 * message.length) >>> 32) ++ wordBytes (8 * message.length)

/-- Compress `n` blocks. -/
def compressBlocks : ℕ → List ℕ → State → State
  | 0, _, s => s
  | n + 1, words, s => compressBlocks n (words.drop 16) (compress s (words.take 16))

/-- The bytes of a state. -/
def State.bytes (s : State) : List UInt8 :=
  wordBytes s.a ++ wordBytes s.b ++ wordBytes s.c ++ wordBytes s.d
    ++ wordBytes s.e ++ wordBytes s.f ++ wordBytes s.g ++ wordBytes s.h

/-- **SHA-256.** -/
def hash (message : List UInt8) : { b : List UInt8 // b.length = 32 } :=
  let words := wordsOf (padded message)
  ⟨(compressBlocks (words.length / 16) words initial).bytes, rfl⟩

/-- A key of one block: long keys are hashed first. -/
def hmacKey (key : List UInt8) : List UInt8 :=
  let key := if key.length ≤ 64 then key else (hash key).val
  key ++ List.replicate (64 - key.length) 0

/-- **HMAC-SHA256.** -/
def hmac (key message : List UInt8) : { b : List UInt8 // b.length = 32 } :=
  let key := hmacKey key
  hash (key.map (· ^^^ 0x5c) ++ (hash (key.map (· ^^^ 0x36) ++ message)).val)

example : (hash [0x61, 0x62, 0x63]).val =
    [0xba, 0x78, 0x16, 0xbf, 0x8f, 0x01, 0xcf, 0xea, 0x41, 0x41, 0x40, 0xde, 0x5d, 0xae, 0x22, 0x23,
     0xb0, 0x03, 0x61, 0xa3, 0x96, 0x17, 0x7a, 0x9c, 0xb4, 0x10, 0xff, 0x61, 0xf2, 0x00, 0x15, 0xad] := by
  decide +kernel

example : (hmac [0x4a, 0x65, 0x66, 0x65]
     [0x77, 0x68, 0x61, 0x74, 0x20, 0x64, 0x6f, 0x20, 0x79, 0x61, 0x20, 0x77, 0x61, 0x6e,
      0x74, 0x20, 0x66, 0x6f, 0x72, 0x20, 0x6e, 0x6f, 0x74, 0x68, 0x69, 0x6e, 0x67, 0x3f]).val =
    [0x5b, 0xdc, 0xc1, 0x46, 0xbf, 0x60, 0x75, 0x4e, 0x6a, 0x04, 0x24, 0x26, 0x08, 0x95, 0x75, 0xc7,
     0x5a, 0x00, 0x3f, 0x08, 0x9d, 0x27, 0x39, 0x83, 0x9d, 0xec, 0x58, 0xb9, 0x64, 0xec, 0x38, 0x43] := by
  decide +kernel

end Sha256
