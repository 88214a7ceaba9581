/-!
SipHash with one compression round and three finishing rounds, under the key zero.
-/
namespace SourceSlices.Digest

structure SipState where
  v0 : UInt64
  v1 : UInt64
  v2 : UInt64
  v3 : UInt64

def rotateLeft64 (x n : UInt64) : UInt64 := (x <<< n) ||| (x >>> (64 - n))

def SipState.round (s : SipState) : SipState :=
  let v0 := s.v0 + s.v1
  let v1 := rotateLeft64 s.v1 13 ^^^ v0
  let v0 := rotateLeft64 v0 32
  let v2 := s.v2 + s.v3
  let v3 := rotateLeft64 s.v3 16 ^^^ v2
  let v0 := v0 + v3
  let v3 := rotateLeft64 v3 21 ^^^ v0
  let v2 := v2 + v1
  let v1 := rotateLeft64 v1 17 ^^^ v2
  let v2 := rotateLeft64 v2 32
  ⟨v0, v1, v2, v3⟩

def SipState.start : SipState :=
  ⟨0x736f6d6570736575, 0x646f72616e646f6d, 0x6c7967656e657261, 0x7465646279746573⟩

def SipState.word (s : SipState) (m : UInt64) : SipState :=
  let t := ({ s with v3 := s.v3 ^^^ m }).round
  { t with v0 := t.v0 ^^^ m }

def littleEndian (bytes : List UInt8) : UInt64 :=
  bytes.foldr (fun b acc => (acc <<< 8) ||| b.toUInt64) 0

def SipState.bytes (s : SipState) : List UInt8 → SipState × List UInt8
  | a :: b :: c :: d :: e :: f :: g :: h :: rest =>
    (s.word (littleEndian [a, b, c, d, e, f, g, h])).bytes rest
  | rest => (s, rest)

/-- The 64 bit hash of a byte list. -/
def sipHash (bytes : List UInt8) : UInt64 :=
  let (s, rest) := SipState.start.bytes bytes
  let last := littleEndian rest ||| (UInt64.ofNat bytes.length <<< 56)
  let t := s.word last
  let t := ({ t with v2 := t.v2 ^^^ 0xff }).round.round.round
  t.v0 ^^^ t.v1 ^^^ t.v2 ^^^ t.v3

end SourceSlices.Digest
