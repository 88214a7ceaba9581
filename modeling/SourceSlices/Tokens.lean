import SourceSlices.Text.Utf8
import SourceSlices.Digest.SipHash

/-!
Token counting. A run of word characters costs one token for every eight characters or part of
eight; any other character that is not blank costs one token; blanks are free.
-/
namespace SourceSlices

/-- What splitting needs to know about a tokenizer. -/
abbrev Counter := List Char → Nat

namespace Tokens

/-- Characters of one word piece. -/
def pieceLength : Nat := 8

def isWordChar (c : Char) : Bool := Text.isAlphanumeric c || c == '_'

/-- Cuts a word run into pieces of eight characters; the last may be shorter. -/
def pieces : Nat → List Char → List (List Char)
  | 0, _ => []
  | fuel + 1, run =>
    if run.isEmpty then [] else run.take pieceLength :: pieces fuel (run.drop pieceLength)

def runPieces (run : List Char) : List (List Char) := pieces run.length run

/-- Pieces of a text, `run` being the word characters just before it, last one first. -/
def piecesFrom (run : List Char) : List Char → List (List Char)
  | [] => runPieces run.reverse
  | c :: cs =>
    if isWordChar c then piecesFrom (c :: run) cs
    else
      runPieces run.reverse ++
        (if Text.isBlank c then piecesFrom [] cs else [c] :: piecesFrom [] cs)

/-- The pieces that cost one token each, in order. -/
def piecesOf (cs : List Char) : List (List Char) := piecesFrom [] cs

/-- Pieces of a run of that many word characters. -/
def runCost (n : Nat) : Nat := (n + (pieceLength - 1)) / pieceLength

/-- Tokens of a text that follows a run of that many word characters. -/
def costFrom : Nat → List Char → Nat
  | n, [] => runCost n
  | n, c :: cs =>
    if isWordChar c then costFrom (n + 1) cs
    else runCost n + ((if Text.isBlank c then 0 else 1) + costFrom 0 cs)

def count : Counter := costFrom 0

/-- Low half of the hash of a piece and a closing byte. -/
def pieceId (piece : List Char) : Nat :=
  (Digest.sipHash (Text.encodeUtf8 (String.ofList piece) ++ [0xff])).toNat % 4294967296

def ids (cs : List Char) : List Nat := (piecesOf cs).map pieceId

/-- Budget used when nothing limits the size of a chunk. -/
def defaultBudget : Nat := 2000

def name : String := "heuristic"

end Tokens

end SourceSlices
