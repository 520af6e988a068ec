import Mathlib.Data.Nat.Notation

/-!
# SHA-256

The hash function over lists of bytes, in words of natural numbers below `2 ^ 32`.  It makes the digests
of concrete events computable.

The kernel evaluates a word when it is matched on, so every step of the two loops passes its new words
through `force`; the terms then stay small.
-/

namespace Sha256

/-- Evaluate the argument first. -/
def force {α : Type} (n : ℕ) (k : ℕ → α) : α :=
  match n with
  | 0 => k 0
  | n + 1 => k (n + 1)

theorem force_eq {α : Type} (n : ℕ) (k : ℕ → α) : force n k = k n := by
  cases n <;> rfl

def word (n : ℕ) : ℕ := n % 4294967296

def rotr (k x : ℕ) : ℕ := (x >>> k) ||| word (x <<< (32 - k))

def bigSigma0 (x : ℕ) : ℕ := rotr 2 x ^^^ rotr 13 x ^^^ rotr 22 x

def bigSigma1 (x : ℕ) : ℕ := rotr 6 x ^^^ rotr 11 x ^^^ rotr 25 x

def smallSigma0 (x : ℕ) : ℕ := rotr 7 x ^^^ rotr 18 x ^^^ (x >>> 3)

def smallSigma1 (x : ℕ) : ℕ := rotr 17 x ^^^ rotr 19 x ^^^ (x >>> 10)

def ch (x y z : ℕ) : ℕ := (x &&& y) ^^^ ((4294967295 - x) &&& z)

def maj (x y z : ℕ) : ℕ := (x &&& y) ^^^ (x &&& z) ^^^ (y &&& z)

/-- The round constants. -/
def constants : List ℕ :=
  [0x428a2f98, 0x71374491, 0xb5c0fbcf, 0xe9b5dba5, 0x3956c25b, 0x59f111f1, 0x923f82a4, 0xab1c5ed5,
    0xd807aa98, 0x12835b01, 0x243185be, 0x550c7dc3, 0x72be5d74, 0x80deb1fe, 0x9bdc06a7, 0xc19bf174,
    0xe49b69c1, 0xefbe4786, 0x0fc19dc6, 0x240ca1cc, 0x2de92c6f, 0x4a7484aa, 0x5cb0a9dc, 0x76f988da,
    0x983e5152, 0xa831c66d, 0xb00327c8, 0xbf597fc7, 0xc6e00bf3, 0xd5a79147, 0x06ca6351, 0x14292967,
    0x27b70a85, 0x2e1b2138, 0x4d2c6dfc, 0x53380d13, 0x650a7354, 0x766a0abb, 0x81c2c92e, 0x92722c85,
    0xa2bfe8a1, 0xa81a664b, 0xc24b8b70, 0xc76c51a3, 0xd192e819, 0xd6990624, 0xf40e3585, 0x106aa070,
    0x19a4c116, 0x1e376c08, 0x2748774c, 0x34b0bcb5, 0x391c0cb3, 0x4ed8aa4a, 0x5b9cca4f, 0x682e6ff3,
    0x748f82ee, 0x78a5636f, 0x84c87814, 0x8cc70208, 0x90befffa, 0xa4506ceb, 0xbef9a3f7, 0xc67178f2]

structure State where
  a : ℕ
  b : ℕ
  c : ℕ
  d : ℕ
  e : ℕ
  f : ℕ
  g : ℕ
  h : ℕ

def initial : State :=
  ⟨0x6a09e667, 0xbb67ae85, 0x3c6ef372, 0xa54ff53a, 0x510e527f, 0x9b05688c, 0x1f83d9ab, 0x5be0cd19⟩

/-- One round with constant `k` and message word `w`. -/
def round (s : State) (k w : ℕ) : State :=
  force (word (s.h + bigSigma1 s.e + ch s.e s.f s.g + k + w)) fun t1 =>
    force (word (t1 + bigSigma0 s.a + maj s.a s.b s.c)) fun a =>
      force (word (s.d + t1)) fun e => ⟨a, s.a, s.b, s.c, e, s.e, s.f, s.g⟩

/-- The next word of the message schedule, from the last sixteen. -/
def nextWord : List ℕ → ℕ
  | [w0, w1, _, _, _, _, _, _, _, w9, _, _, _, _, w14, _] =>
    word (smallSigma1 w14 + w9 + smallSigma0 w1 + w0)
  | _ => 0

/-- The rounds of one block; the window holds the next sixteen message words. -/
def rounds : List ℕ → List ℕ → State → State
  | [], _, s => s
  | k :: ks, window, s =>
    force (nextWord window) fun w =>
      rounds ks (window.tail ++ [w]) (round s k (window.headD 0))

def add (s t : State) : State :=
  force (word (s.a + t.a)) fun a => force (word (s.b + t.b)) fun b =>
    force (word (s.c + t.c)) fun c => force (word (s.d + t.d)) fun d =>
      force (word (s.e + t.e)) fun e => force (word (s.f + t.f)) fun f =>
        force (word (s.g + t.g)) fun g => force (word (s.h + t.h)) fun h => ⟨a, b, c, d, e, f, g, h⟩

/-- Four bytes each, the high one first. -/
def words : List ℕ → List ℕ
  | a :: b :: c :: d :: rest =>
    force (((a * 256 + b) * 256 + c) * 256 + d) fun w => w :: words rest
  | _ => []

/-- The blocks of sixteen words, one after another. -/
def blocks : ℕ → List ℕ → State → State
  | 0, _, s => s
  | n + 1, message, s =>
    blocks n (message.drop 16) (add s (rounds constants (message.take 16) s))

/-- One bit, zeros, and the length in bits, up to a multiple of 64 bytes. -/
def pad (message : List ℕ) : List ℕ :=
  let n := message.length
  message ++ 128 :: List.replicate ((119 - n % 64) % 64) 0 ++
    (List.range 8).map fun i => (8 * n) >>> (8 * (7 - i)) % 256

def hexWord (n : ℕ) : List Char := (List.range 8).map fun i => (n >>> (4 * (7 - i)) % 16).digitChar

/-- The digest of the bytes, in lowercase hexadecimal. -/
def hash (message : List UInt8) : String :=
  let padded := words (pad (message.map UInt8.toNat))
  let s := blocks (padded.length / 16) padded initial
  String.ofList ([s.a, s.b, s.c, s.d, s.e, s.f, s.g, s.h].flatMap hexWord)

example : hash [97, 98, 99] =
    "ba7816bf8f01cfea414140de5dae2223b00361a396177a9cb410ff61f20015ad" := by decide +kernel

end Sha256
