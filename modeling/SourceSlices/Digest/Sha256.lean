/-!
The SHA-256 digest of a byte list.
-/
namespace SourceSlices.Digest

/-- Round constants: the first 32 bits of the fractional parts of the cube roots of primes. -/
def roundConstants : Array UInt32 := #[
  0x428a2f98, 0x71374491, 0xb5c0fbcf, 0xe9b5dba5, 0x3956c25b, 0x59f111f1, 0x923f82a4, 0xab1c5ed5,
  0xd807aa98, 0x12835b01, 0x243185be, 0x550c7dc3, 0x72be5d74, 0x80deb1fe, 0x9bdc06a7, 0xc19bf174,
  0xe49b69c1, 0xefbe4786, 0x0fc19dc6, 0x240ca1cc, 0x2de92c6f, 0x4a7484aa, 0x5cb0a9dc, 0x76f988da,
  0x983e5152, 0xa831c66d, 0xb00327c8, 0xbf597fc7, 0xc6e00bf3, 0xd5a79147, 0x06ca6351, 0x14292967,
  0x27b70a85, 0x2e1b2138, 0x4d2c6dfc, 0x53380d13, 0x650a7354, 0x766a0abb, 0x81c2c92e, 0x92722c85,
  0xa2bfe8a1, 0xa81a664b, 0xc24b8b70, 0xc76c51a3, 0xd192e819, 0xd6990624, 0xf40e3585, 0x106aa070,
  0x19a4c116, 0x1e376c08, 0x2748774c, 0x34b0bcb5, 0x391c0cb3, 0x4ed8aa4a, 0x5b9cca4f, 0x682e6ff3,
  0x748f82ee, 0x78a5636f, 0x84c87814, 0x8cc70208, 0x90befffa, 0xa4506ceb, 0xbef9a3f7, 0xc67178f2]

/-- The eight words carried from block to block. -/
structure Sha256 where
  a : UInt32
  b : UInt32
  c : UInt32
  d : UInt32
  e : UInt32
  f : UInt32
  g : UInt32
  h : UInt32

def Sha256.start : Sha256 :=
  ⟨0x6a09e667, 0xbb67ae85, 0x3c6ef372, 0xa54ff53a, 0x510e527f, 0x9b05688c, 0x1f83d9ab, 0x5be0cd19⟩

def rotateRight (x n : UInt32) : UInt32 := (x >>> n) ||| (x <<< (32 - n))

def Sha256.round (s : Sha256) (k w : UInt32) : Sha256 :=
  let s1 := rotateRight s.e 6 ^^^ rotateRight s.e 11 ^^^ rotateRight s.e 25
  let ch := (s.e &&& s.f) ^^^ ((~~~ s.e) &&& s.g)
  let t1 := s.h + s1 + ch + k + w
  let s0 := rotateRight s.a 2 ^^^ rotateRight s.a 13 ^^^ rotateRight s.a 22
  let maj := (s.a &&& s.b) ^^^ (s.a &&& s.c) ^^^ (s.b &&& s.c)
  ⟨t1 + s0 + maj, s.a, s.b, s.c, s.d + t1, s.e, s.f, s.g⟩

def Sha256.add (s t : Sha256) : Sha256 :=
  ⟨s.a + t.a, s.b + t.b, s.c + t.c, s.d + t.d, s.e + t.e, s.f + t.f, s.g + t.g, s.h + t.h⟩

/-- Extends sixteen words to sixty-four. -/
def schedule (words : Array UInt32) : Array UInt32 :=
  (List.range 48).foldl (fun w i =>
    let x := w.getD (i + 1) 0
    let y := w.getD (i + 14) 0
    let s0 := rotateRight x 7 ^^^ rotateRight x 18 ^^^ (x >>> 3)
    let s1 := rotateRight y 17 ^^^ rotateRight y 19 ^^^ (y >>> 10)
    w.push (w.getD i 0 + s0 + w.getD (i + 9) 0 + s1)) words

def Sha256.block (s : Sha256) (words : Array UInt32) : Sha256 :=
  let w := schedule words
  let t := (List.range 64).foldl
    (fun t i => t.round (roundConstants.getD i 0) (w.getD i 0)) s
  s.add t

def wordOf (a b c d : UInt8) : UInt32 :=
  (a.toUInt32 <<< 24) ||| (b.toUInt32 <<< 16) ||| (c.toUInt32 <<< 8) ||| d.toUInt32

/-- Big-endian words of a byte list whose length is a multiple of four. -/
def wordsOf : List UInt8 → List UInt32
  | a :: b :: c :: d :: rest => wordOf a b c d :: wordsOf rest
  | _ => []

def bigEndian (n : Nat) (size : Nat) : List UInt8 :=
  (List.range size).map fun i => UInt8.ofNat (n / Nat.pow 256 (size - 1 - i))

/-- The message, a one bit, zeros, and the length in bits, up to a multiple of 64 bytes. -/
def pad (bytes : List UInt8) : List UInt8 :=
  let n := bytes.length
  bytes ++ 0x80 :: List.replicate ((119 - n % 64) % 64) 0 ++ bigEndian (8 * n) 8

def Sha256.blocks : Nat → Sha256 → List UInt32 → Sha256
  | 0, s, _ => s
  | fuel + 1, s, words =>
    if words.isEmpty then s
    else Sha256.blocks fuel (s.block (words.take 16).toArray) (words.drop 16)

def hexDigits : Array Char :=
  #['0', '1', '2', '3', '4', '5', '6', '7', '8', '9', 'a', 'b', 'c', 'd', 'e', 'f']

def hexOfByte (b : UInt8) : List Char :=
  [hexDigits.getD (b.toNat / 16) '0', hexDigits.getD (b.toNat % 16) '0']

/-- Small hexadecimal digits, two for each byte. -/
def hex (bytes : List UInt8) : String := String.ofList (bytes.flatMap hexOfByte)

def Sha256.bytes (s : Sha256) : List UInt8 :=
  [s.a, s.b, s.c, s.d, s.e, s.f, s.g, s.h].flatMap fun w => bigEndian w.toNat 4

/-- The 32 digest bytes. -/
def sha256 (bytes : List UInt8) : List UInt8 :=
  let words := wordsOf (pad bytes)
  (Sha256.start.blocks (words.length + 1) words).bytes

def sha256Hex (bytes : List UInt8) : String := hex (sha256 bytes)

end SourceSlices.Digest
