import DdTrace.Library.Bytes

/-!
# SHA-256

The hash function of FIPS 180-4 over lists of bytes, with words as numbers below `2 ^ 32`.  The
message schedule is not kept as a table: a round takes the first of the sixteen words ahead of it
and puts the one it makes behind them.

`force` hands a number to a function once it is computed, so that a digest can be evaluated by
reduction.
-/

namespace Library.Sha256

/-- Apply a function to the value of a number. -/
def force {α : Type*} (n : ℕ) (f : ℕ → α) : α :=
  match n with
  | 0 => f 0
  | n + 1 => f (n + 1)

/-- The words of a round, `K`. -/
def roundConstants : List ℕ :=
  [0x428a2f98, 0x71374491, 0xb5c0fbcf, 0xe9b5dba5, 0x3956c25b, 0x59f111f1, 0x923f82a4,
    0xab1c5ed5, 0xd807aa98, 0x12835b01, 0x243185be, 0x550c7dc3, 0x72be5d74, 0x80deb1fe,
    0x9bdc06a7, 0xc19bf174, 0xe49b69c1, 0xefbe4786, 0x0fc19dc6, 0x240ca1cc, 0x2de92c6f,
    0x4a7484aa, 0x5cb0a9dc, 0x76f988da, 0x983e5152, 0xa831c66d, 0xb00327c8, 0xbf597fc7,
    0xc6e00bf3, 0xd5a79147, 0x06ca6351, 0x14292967, 0x27b70a85, 0x2e1b2138, 0x4d2c6dfc,
    0x53380d13, 0x650a7354, 0x766a0abb, 0x81c2c92e, 0x92722c85, 0xa2bfe8a1, 0xa81a664b,
    0xc24b8b70, 0xc76c51a3, 0xd192e819, 0xd6990624, 0xf40e3585, 0x106aa070, 0x19a4c116,
    0x1e376c08, 0x2748774c, 0x34b0bcb5, 0x391c0cb3, 0x4ed8aa4a, 0x5b9cca4f, 0x682e6ff3,
    0x748f82ee, 0x78a5636f, 0x84c87814, 0x8cc70208, 0x90befffa, 0xa4506ceb, 0xbef9a3f7,
    0xc67178f2]

/-- `ROTR`. -/
def rotr (x n : ℕ) : ℕ := (x >>> n ||| x <<< (32 - n)) % 2 ^ 32

/-- The eight working variables. -/
structure Working where
  a : ℕ
  b : ℕ
  c : ℕ
  d : ℕ
  e : ℕ
  f : ℕ
  g : ℕ
  h : ℕ
  deriving DecidableEq

def initial : Working :=
  ⟨0x6a09e667, 0xbb67ae85, 0x3c6ef372, 0xa54ff53a, 0x510e527f, 0x9b05688c, 0x1f83d9ab, 0x5be0cd19⟩

/-- `Σ₀` and `Maj` of the working variables. -/
def Working.upper (s : Working) : ℕ :=
  (rotr s.a 2 ^^^ rotr s.a 13 ^^^ rotr s.a 22) + ((s.a &&& s.b) ^^^ (s.a &&& s.c) ^^^ (s.b &&& s.c))

/-- `h`, `Σ₁` and `Ch` of the working variables. -/
def Working.lower (s : Working) : ℕ :=
  s.h + (rotr s.e 6 ^^^ rotr s.e 11 ^^^ rotr s.e 25) +
    ((s.e &&& s.f) ^^^ ((2 ^ 32 - 1 - s.e) &&& s.g))

/-- The word that comes sixteen words after the first one of `words`. -/
def nextWord (words : List ℕ) : ℕ :=
  let x := words.getD 14 0
  let y := words.getD 1 0
  ((rotr x 17 ^^^ rotr x 19 ^^^ x >>> 10) + words.getD 9 0 +
    (rotr y 7 ^^^ rotr y 18 ^^^ y >>> 3) + words.getD 0 0) % 2 ^ 32

/-- The rounds of some constants, over the words ahead. -/
def rounds : List ℕ → List ℕ → Working → Working
  | [], _, s => s
  | k :: ks, words, s =>
    force ((s.lower + k + words.getD 0 0) % 2 ^ 32) fun t =>
    force ((t + s.upper) % 2 ^ 32) fun a =>
    force ((s.d + t) % 2 ^ 32) fun e =>
    force (nextWord words) fun w =>
      rounds ks (words.tail ++ [w]) ⟨a, s.a, s.b, s.c, e, s.e, s.f, s.g⟩

/-- One block of sixteen words. -/
def compress (s : Working) (words : List ℕ) : Working :=
  let t := rounds roundConstants words s
  ⟨(s.a + t.a) % 2 ^ 32, (s.b + t.b) % 2 ^ 32, (s.c + t.c) % 2 ^ 32, (s.d + t.d) % 2 ^ 32,
    (s.e + t.e) % 2 ^ 32, (s.f + t.f) % 2 ^ 32, (s.g + t.g) % 2 ^ 32, (s.h + t.h) % 2 ^ 32⟩

/-- A message with its padding: a bit, zeros, and its length in bits. -/
def pad (message : List UInt8) : List UInt8 :=
  message ++ 0x80 :: (List.replicate ((119 - message.length % 64) % 64) 0 ++
    Bytes.toBytes 8 (8 * message.length))

/-- The words of some bytes, four bytes each. -/
def words : List UInt8 → List ℕ
  | b₀ :: b₁ :: b₂ :: b₃ :: bytes =>
    (b₀.toNat * 2 ^ 24 + b₁.toNat * 2 ^ 16 + b₂.toNat * 2 ^ 8 + b₃.toNat) :: words bytes
  | _ => []

/-- The blocks of some words, as many as `fuel`. -/
def blocks : ℕ → List ℕ → Working → Working
  | 0, _, s => s
  | fuel + 1, words, s => blocks fuel (words.drop 16) (compress s (words.take 16))

def Working.bytes (s : Working) : List UInt8 :=
  [s.a, s.b, s.c, s.d, s.e, s.f, s.g, s.h].flatMap (Bytes.toBytes 4)

/-- The digest of a message. -/
def digest (message : List UInt8) : List UInt8 :=
  let padded := words (pad message)
  (blocks (padded.length / 16) padded initial).bytes

end Library.Sha256
