import SourceSlices.Digest.Sha256
import SourceSlices.Text.Utf8

/-!
Content digests. The handler version and each salt are closed by a zero byte and come before the
content, so a new handler version changes every digest.
-/
namespace SourceSlices.Hashing

def delimiter : UInt8 := 0

/-- Version and salts, each with its delimiter. -/
def seed (version : String) (salts : List String) : List UInt8 :=
  (version :: salts).flatMap fun s => Text.encodeUtf8 s ++ [delimiter]

/-- All bytes that go into the digest of `content`. -/
def stream (content : List UInt8) (version : String) (salts : List String) : List UInt8 :=
  seed version salts ++ content

def hashBytes (content : List UInt8) (version : String) (salts : List String) : String :=
  Digest.sha256Hex (stream content version salts)

def hashText (text version : String) (salts : List String) : String :=
  hashBytes (Text.encodeUtf8 text) version salts

/-- Digest of bare bytes. -/
def checksum (bytes : List UInt8) : String := Digest.sha256Hex bytes

/-- Line ends unified, blanks at both ends removed. -/
def normalize (cs : List Char) : List Char := Text.trim (Text.unifyLineEnds cs)

def normalizeText (text : String) : String := String.ofList (normalize text.toList)

end SourceSlices.Hashing
