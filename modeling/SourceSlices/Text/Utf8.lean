import SourceSlices.Text.Lines

/-!
UTF-8: writing, and reading bytes of which some may be invalid. Each maximal invalid part of a
sequence is read as one replacement character.
-/
namespace SourceSlices.Text

/-- The bytes of a text. -/
def encodeUtf8 (s : String) : List UInt8 := s.toUTF8.toList

/-- Range allowed for the second byte, and the number of bytes that follow the first. -/
def leadInfo (b : Nat) : Option (Nat × Nat × Nat) :=
  if 0xc2 ≤ b ∧ b ≤ 0xdf then some (0x80, 0xbf, 1)
  else if b = 0xe0 then some (0xa0, 0xbf, 2)
  else if 0xe1 ≤ b ∧ b ≤ 0xec then some (0x80, 0xbf, 2)
  else if b = 0xed then some (0x80, 0x9f, 2)
  else if 0xee ≤ b ∧ b ≤ 0xef then some (0x80, 0xbf, 2)
  else if b = 0xf0 then some (0x90, 0xbf, 3)
  else if 0xf1 ≤ b ∧ b ≤ 0xf3 then some (0x80, 0xbf, 3)
  else if b = 0xf4 then some (0x80, 0x8f, 3)
  else none

/-- One byte sequence: its character if it is valid, and the number of bytes it takes. -/
def decodeOne (b : Nat) (rest : List UInt8) : Option Char × Nat :=
  if b < 0x80 then (some (Char.ofNat b), 1)
  else match leadInfo b with
    | none => (none, 1)
    | some (lo, hi, more) =>
      match rest with
      | [] => (none, 1)
      | b1 :: rest1 =>
        let n1 := b1.toNat
        if n1 < lo || hi < n1 then (none, 1)
        else
          let cont (n : UInt8) : Bool := 0x80 ≤ n.toNat && n.toNat ≤ 0xbf
          match more, rest1 with
          | 1, _ => (some (Char.ofNat ((b - 0xc0) * 64 + (n1 - 0x80))), 2)
          | 2, b2 :: _ =>
            if cont b2 then
              (some (Char.ofNat ((b - 0xe0) * 4096 + (n1 - 0x80) * 64 + (b2.toNat - 0x80))), 3)
            else (none, 2)
          | 3, b2 :: b3 :: _ =>
            if cont b2 then
              if cont b3 then
                (some (Char.ofNat ((b - 0xf0) * 262144 + (n1 - 0x80) * 4096 +
                  (b2.toNat - 0x80) * 64 + (b3.toNat - 0x80))), 4)
              else (none, 3)
            else (none, 2)
          | 3, [b2] => if cont b2 then (none, 3) else (none, 2)
          | _, _ => (none, 2)

/-- Reads bytes with a bound on the number of steps. -/
def decodeBytes : Nat → List UInt8 → List (Option Char)
  | 0, _ => []
  | _, [] => []
  | fuel + 1, b :: rest =>
    let (c, n) := decodeOne b.toNat rest
    c :: decodeBytes fuel (rest.drop (n - 1))

/-- Reads bytes; whatever is not UTF-8 becomes the replacement character. -/
def decodeLossy (bytes : List UInt8) : String :=
  String.ofList ((decodeBytes bytes.length bytes).map fun c => c.getD '\uFFFD')

/-- Reads bytes if all of them are valid UTF-8. -/
def decodeUtf8? (bytes : List UInt8) : Option String :=
  ((decodeBytes bytes.length bytes).mapM id).map String.ofList

end SourceSlices.Text
