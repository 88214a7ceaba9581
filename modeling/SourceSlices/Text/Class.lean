/-!
Character classes over all of Unicode: blank characters, word characters and punctuation.
ASCII is decided directly; the rest is looked up in tables of code point ranges.
-/
namespace SourceSlices.Text

/-- Inclusive range of code points. -/
structure CodeRange where
  lo : Nat
  hi : Nat

def CodeRange.Contains (r : CodeRange) (n : Nat) : Prop := r.lo ≤ n ∧ n ≤ r.hi

instance (r : CodeRange) (n : Nat) : Decidable (r.Contains n) :=
  inferInstanceAs (Decidable (_ ∧ _))

/-- Value of a base 36 digit; other characters count as zero. -/
def digit36 (c : Char) : Nat :=
  if '0' ≤ c ∧ c ≤ '9' then c.toNat - 48
  else if 'a' ≤ c ∧ c ≤ 'z' then c.toNat - 87 else 0

/-- Numbers in base 36 separated by spaces and line ends. -/
def numbers36 (text : String) : List Nat :=
  let (done, last) := text.toList.foldl
    (fun (acc : List Nat × Option Nat) c =>
      if c = ' ' ∨ c = '\n' then (acc.2.toList ++ acc.1, none)
      else (acc.1, some (acc.2.getD 0 * 36 + digit36 c))) ([], none)
  (last.toList ++ done).reverse

/-- Ranges given as gap since the previous end and length, one after the other. -/
def rangesFrom : Nat → List Nat → List CodeRange
  | base, gap :: len :: rest =>
    ⟨base + gap, base + gap + len⟩ :: rangesFrom (base + gap + len) rest
  | _, _ => []

/-- Ascending, disjoint ranges of code points. -/
abbrev RangeTable := Array CodeRange

def RangeTable.ofText (text : String) : RangeTable := (rangesFrom 0 (numbers36 text)).toArray

/-- Binary search between two positions; the fuel bounds the number of halvings. -/
def RangeTable.search (t : RangeTable) (n : Nat) : Nat → Nat → Nat → Bool
  | 0, _, _ => false
  | fuel + 1, lo, hi =>
    if lo < hi then
      let mid := (lo + hi) / 2
      match t[mid]? with
      | none => false
      | some r =>
        if n < r.lo then t.search n fuel lo mid
        else if r.hi < n then t.search n fuel (mid + 1) hi
        else true
    else false

def RangeTable.has (t : RangeTable) (n : Nat) : Bool := t.search n (t.size + 1) 0 t.size

/-- Code points above ASCII that are alphabetic or have a numeric category. -/
def wordTable : RangeTable := .ofText
  "4q 0 8 1 2 0 4 1 2 2 2 m 2 u 2 cp 5 b f 4 8 0 2 0 2f 0 u h 2 1 3 3 2 0 7 0 2 2 2 0 2 j 2 2a
  2 3u 9 4l 2 11 3 0 7 14 14 d 2 0 2 1 2 1 2 0 9 q 5 3 u a 6 1j 2 g 5 2t 2 7 5 7 5 f 3 0 h 1b
  e 2s f 16 a 1 5 0 6 n 3 i k o 8 a 6 n 2 6 8 0 9 15 b b 4 6 7 23 2 f 2 2 5 e 3 9 2 i 2 7 3 1
  3 l 2 6 2 0 4 3 4 7 3 1 3 1 2 0 9 0 5 1 2 4 3 b 3 5 3 0 5 2 2 5 5 1 3 l 2 6 2 1 2 1 2 1 5 4
  5 1 3 1 5 0 8 3 2 0 8 f c 2 2 8 2 2 2 l 2 6 2 1 2 4 4 8 2 2 2 1 4 0 g 3 3 9 a 3 5 2 2 7 3 1
  3 l 2 6 2 1 2 4 4 7 3 1 3 1 a 1 5 1 2 4 3 9 2 6 b 1 2 5 4 2 2 3 4 1 2 0 2 1 4 1 4 2 4 b 5 4
  4 2 2 2 4 0 7 0 f c e c 2 2 2 m 2 f 4 7 2 2 2 2 9 1 2 2 2 1 3 3 3 9 9 6 2 3 2 7 2 2 2 m 2 9
  2 4 4 7 2 2 2 2 9 1 6 2 2 3 3 9 2 2 d c 2 2 2 14 3 7 2 2 2 2 2 0 6 f 3 i 2 5 2 2 2 h 4 n 2 8
  2 0 3 6 9 5 2 0 2 7 7 9 3 1 e 1l 6 6 7 0 3 9 14 1 2 0 2 4 2 n 2 0 2 i 2 2 3 4 2 0 7 0 3 9 3
  3 x 0 w j d 7 2 z 5 i 5 f 2 z 1w 1i 2 0 3 e 7 25 3 11 2 0 6 0 3 16 2 98 2 3 3 6 2 0 2 3 3 14
  2 3 3 w 2 3 3 6 2 0 2 3 3 e 2 1k 2 3 3 1u f j 4 f h 2d 3 5 4 h7 3 g 2 p 6 22 4 a 8 j c k d j
  d c 2 2 2 1 d 1f 3 i f 0 5 0 4 9 7 9 n 9 7 2g 8 16 6 1x b u 2 b 5 8 e 13 3 4 c 17 5 p 7 a 12
  r 5 1q 3 j c 9 7 9 e 0 o 1 c 2 1e 1f 2 e 2 7 4 9 13 15 3 1l 2 a f 1i a 9 4 1c 3 a 6 16 3 2
  16 3 2 5 2 1 4 0 6 5b k x c 7p 3 5 3 11 3 5 3 7 2 0 2 0 2 0 2 u 3 1g 2 6 2 0 4 2 2 6 4 3 3 5
  5 c 6 2 2 6 38 1 3 5 6 a 7 c 2u 0 5 0 3 9 2 0 4 4 7 0 2 0 2 0 2 3 2 a 3 3 6 4 5 0 2 1l k7 1n
  r 21 hj t vh 6c 7 3 4 1 a 0 3 11 2 0 6 0 3 1j 8 0 h m a 6 2 6 2 6 2 6 2 6 2 6 2 6 2 6 2 v 1c
  0 d2 2 q 8 8 4 3 4 5 2d 7 2 2 2h 2 3 6 16 2 2l 4 3 b v 1d f x 9 v 7 2 e x 9 14 e 8x 533 1t
  h3g 1w 19 3 7g 4 r l 1a 6 7 4 34 14 8 3 2u 3 29 l k 2 w 9 5 b 1f d 1v 2 0 b 9 p 5 4 0 2 19 6
  y e s 4 1e 2 b g a 7 u 2 1i a d 3 9 7 m 4 1w 2 0 2 0 p 2 3 f 3 3 c 5 3 5 3 5 a 6 2 6 2 16 2
  d 7 3e 6 9 7 8mb d m 5 1c 6it a5 3 2x 13 6 d 4 6 b 2 c 2 4 2 0 2 1 2 1 2 2z y a2 j 1r 3 1h
  15 b 39 4 2 3q k 9 8 p 7 p c 2g 4 5 3 5 3 5 3 2 10 b 2 p 2 i 2 1 2 e 3 d z 3e d 18 d 1k i 1
  6t s 4 1c h q 5 z a t 6 16 6 t 3 z 5 7 2 4 17 4d 3 9 7 z 5 z 5 13 9 1f d a 2 e 2 6 2 1 2 a 2
  e 2 6 2 1 4 1f d 8m a l b 7 p 5 2 15 2 8 1y 5 3 0 2 17 2 1 4 0 3 m 3 u 3 11 9 8 1d i 2 1 6 w
  5 p 7 p 13 1j 5 j 3 1d 2 1 6 7 2 2 2 s b 8 o u 2 v x 7 2 r 7 4 h 1h b l 3 q 6 p o 6 29 20 1k
  1e e 1e 8 19 9 9 7 11 4 0 6 m 63 u 2 15 2 1 4 1 h 5 1f 2 4 13 9 l c 3 s h 1b r l m a 1x d t
  2 4 b 1k a 0 e o 8 9 7 1e 4 9 5 3 9 y 4 0 a 1r 2 3 a c 2 0 5 j c h 2 x 3 0 7 3 1r 6 2 0 2 3
  2 e 2 9 8 1k 8 9 7 3 2 7 3 1 3 l 2 6 2 1 2 4 4 7 3 1 3 1 4 0 7 0 6 6 t 9 2 0 3 0 2 11 2 9 2
  0 3 0 2 3 2 1 4 0 2 0 19 1t 2 2 2 3 6 9 6 2 v 1t 3 1 2 0 9 9 4n 1h 3 6 q 5 z 1q 2 0 4 0 c 9
  13 1h 3 0 8 9 7 j t q 3 d 6 b 5 6 56 1k 2w 2a d 7 3 0 3 7 2 1 2 t 2 1 3 1 3 3 e 9 1z 7 3 19
  3 5 2 0 2 1 s 1e 3 9 i 1z 6 0 j 20 2w 7 2h w g 9 7 8 2 18 2 6 2 0 g s 6 t 3 l 2 d 22 6 2 1 2
  17 4 0 2 1 2 2 2 0 3 1 9 9 7 5 2 1 2 10 2 1 2 3 2 0 8 9 7 17 5 9 6v m a g 2 14 4 2 g 9 2f 0
  g k 18 pl 2v 32 i 5f 219 2o g tr i 5 q 32y 6 g6 5a2 1a 2 9 1c7 fs 8 u 2 9 7 26 2 9 7 t j 1b
  h 3 d 9 2 6 2 k 6 i c1 18 4 9 5j 2e a o 3 o 19 22 5 1k 8 g 1t 1 2 0 d 6 a 5p1 16 v 2q 36 6pq
  3 2 6 2 1 2 82 g 0 u 2 3 0 f 3 9 az 1s5 2y 6 c 4 8 8 9 5 0 382 9 153 j d j 31 o 3s 2c 2 1y 2
  1 3 0 3 1 3 3 2 b 2 0 2 6 2 1s 2 3 3 7 2 6 2 r 2 3 2 4 2 0 4 6 2 9f 3 o 2 o 2 u 2 o 2 u 2 o
  2 u 2 o 2 u 2 o 2 7 3 1d 1dt u 7 5 5y 6 2 g 3 6 2 1 2 4 6 1p y 0 35 18 b 6 3 9 5 0 8y t j 17
  5 9 d3 r 5 9 5z t 3 a 5i u 2 l 9 1 69 6 2 3 2 1 2 e 2 5g 3 8 1d 1v 4 0 4 0 5 9 m0 1m 2 2 2 3
  25 18 2 e 5f 3 2 q 2 1 2 0 3 0 2 9 2 3 2 0 2 0 7 0 5 0 2 0 2 0 2 2 2 1 2 0 3 0 2 0 2 0 2 0 2
  0 2 1 2 0 3 3 2 6 2 3 2 3 2 0 2 9 2 g 6 2 2 4 2 g g5 c 10 p 7 p 7 p 21z 9 sn wyn x 3dp 3 4gd
  3 5rk g h9 1wj f1 15v 3t6 6 6jt"

/-- Code points above ASCII in the punctuation and symbol categories. -/
def punctuationTable : RangeTable := .ofText
  "4h 8 2 1 2 3 3 0 2 2 3 0 4 0 o 0 w 0 cr 3 d d 6 6 2 0 2 g 3a 0 9 0 6 1 2 0 33 0 3w 0 60 5 16
  1 3 2 1b 0 2 0 3 0 3 0 19 1 i 9 c 0 2 2 23 3 2v 0 a 0 b 0 k 1 2 d 6h 3 5 1 1d e w 0 16 0 64
  1 b 0 3m 1 7 1 2 0 3d 0 3e 1 3j 0 3n 7 3h 0 8 0 5 0 5n 0 16 0 3f 0 23 0 g 0 b 1 4m m 3 5 l 0
  2 0 2 0 2 3 20 0 1l 7 2 5 2 c 34 5 27 1 2k 0 h1 8 14 9 2v 0 h9 1 19 1 27 2 20 1 4e 2 2 3 11
  a 8m 0 4 1 49 x v 1 3l 6 2 5 4h 1 b g a b 3h 3 1o 4 1r 1 1t 7 c 0 kq 0 2 2 c 2 e 2 e 2 e 1 i
  n 9 1a s 4 c 4 i x 1r 1 2 3 2 1 b 0 2 2 6 5 2 0 2 0 2 0 5 0 c 1 5 4 6 3 2 0 1n 1 5 ih n a 2a
  25 n hh v rj 3 3t 6e 5 f 3 2 1 35 0 40 1a 2 19 z p 2 2g d 5x r f 2 3 4 o g 0 6 1 6 2 2k 1 4
  0 2j 0 45 1 5 9 x 11 a 0 h u c t 9 0 g v b 12 g 8v 535 1r h3l 1i 1k 1 7i 2 2s 0 b 0 38 5 9 m
  a 1 2w 1 4e 3 b 3 1n 3 2f 1 15 2 2 0 1e 1 1c 0 2q c h 1 3h 3 o 2 2t 1 h 1 2y 0 f 1 3k 0 fni
  0 3t w a4 h 1t 1 1j 7 19 3 h 9 n y 2 i 2 3 46 e b 6 r 5 r a 3f 6 2 6 e 1 77 2 1h 8 1m g 3 2
  2 c 4 0 1c 18 bn 0 1d 0 bj 0 ko 0 w 1 4n 0 w 0 7l 8 13 0 21 0 14 6 1v 6 2i 3 cy 0 w 1 7y 0 z
  8 3h 4 19 3 5a 6 32 1 2 3 3j 3 1d 1 28 3 5 0 e 0 2 2 2h 5 30 0 8b 1 2 1 37 4 b 1 2 0 2x 0 6z
  m 2y 2 t c 25 0 3n 3 70 0 7d 2 4c 0 2l 7 2c 2 2 4 2m 9 60 0 2o 4 17 1 hy 1 23 c 3q s e 0 vl
  4 29p 1 bjw 1 3q 0 1u 8 5 1 fc 2 88 3 94 0 f5m 0 3 0 31d 6n b 2 4 c3 7 m g g 2o 37 1p 6t b
  12 3 1n 6 2 n 1 8 t 5 1o m 1t 4 0 57 2e ob 0 q 0 w 0 q 0 w 0 q 0 w 0 q 0 w 0 q 0 1p e7 1k 3
  1f 7 2 d 2 6 1c4 0 c0 0 lc 0 nz 1 nh 0 4 0 3i 0 ci 1 7j 17 5 2r d e 3 e 2 e 2 10 o 4g 1l s e
  17 5 8 8 1 f 5 4b rc 4 g 4 c 4 61 7 b 5 0 g b 5 1j 9 9 7 13 9 t 3 b 5 1 f 8 14 9j 9 d 3 c 4
  a 4 1k 2 0 5 f 3 b 5 9 8 42 2 2j b 0"

/-- The characters with the Unicode property White_Space. -/
def isBlank (c : Char) : Bool :=
  let n := c.toNat
  (9 ≤ n && n ≤ 13) || n == 0x20 || n == 0x85 || n == 0xa0 || n == 0x1680 ||
    (0x2000 ≤ n && n ≤ 0x200a) || n == 0x2028 || n == 0x2029 || n == 0x202f ||
    n == 0x205f || n == 0x3000

/-- Letters and numbers of any script. -/
def isAlphanumeric (c : Char) : Bool :=
  if c.toNat < 128 then c.isAlphanum else wordTable.has c.toNat

def isAsciiPunctuation (c : Char) : Bool :=
  let n := c.toNat
  (0x21 ≤ n && n ≤ 0x2f) || (0x3a ≤ n && n ≤ 0x40) || (0x5b ≤ n && n ≤ 0x60) ||
    (0x7b ≤ n && n ≤ 0x7e)

/-- Punctuation or symbol of any script. -/
def isPunctuation (c : Char) : Bool :=
  if c.toNat < 128 then isAsciiPunctuation c else punctuationTable.has c.toNat

end SourceSlices.Text
