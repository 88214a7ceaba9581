import SourceSlices.Markdown.Inline

/-!
The events of a Markdown text: headings with their text, and code blocks, in order.
-/
namespace SourceSlices.Markdown

def byteOffsets (cs : List Char) : Array Nat :=
  (cs.foldl (fun (acc : Array Nat × Nat) c =>
    (acc.1.push (acc.2 + c.utf8Size), acc.2 + c.utf8Size)) (#[0], 0)).1

namespace Block

/-- Events of a block, in bytes. -/
def events (t : Chars) (byte : Nat → Nat) (labels : List (List Char)) : Block → List Event
  | .heading level start stop content =>
    let mark (m : Mark) : Event := ⟨m, byte start, byte stop⟩
    mark (.headingStart level) :: (Inline.marks labels content).map mark ++ [mark .headingEnd]
  | .fenced info start stop text =>
    code t byte (.fenceStart (String.ofList info)) start stop text
  | .indented start stop text => code t byte .indentedStart start stop text
where
  code (t : Chars) (byte : Nat → Nat) (begin' : Mark) (start stop : Nat)
      (text : List (Nat × Nat)) : List Event :=
    ⟨begin', byte start, byte stop⟩ ::
      text.map (fun (a, b) => ⟨.text (String.ofList (t.slice a b)), byte a, byte b⟩) ++
      [⟨.codeEnd, byte start, byte stop⟩]

end Block

/-- The events of a text. -/
def events (text : List Char) : List Event :=
  let t : Chars := text.toArray
  let s := BlockState.ofText t
  let bytes := byteOffsets text
  s.blocks.flatMap (Block.events t (fun i => bytes.getD i 0) s.labels)

end SourceSlices.Markdown
