import SourceSlices.Markdown.Scan

/-!
The parts of links: labels, destinations and titles. Where a part may go on in the next line, a
function leads over what stands before the text there, or refuses.
-/
namespace SourceSlices.Markdown

/-- The label of a link without brackets, blanks collapsed, and the position after it; `next` leads
over a line end. -/
def labelFrom? (t : Chars) (next : Nat → Option Nat) :
    Nat → Nat → List Char → Bool → Bool → Option (List Char × Nat)
  | 0, _, _, _, _ => none
  | fuel + 1, i, label, blank, seen =>
    match t[i]? with
    | none => none
    | some c =>
      if c = '[' then none
      else if c = ']' then if seen then some (label.reverse, i + 1) else none
      else if c = '\\' then
        match t[i + 1]? with
        | some d =>
          let label := if blank && seen then ' ' :: label else label
          if d = '\n' || d = '\r' then labelFrom? t next fuel (i + 1) ('\\' :: label) false true
          else labelFrom? t next fuel (i + 2) (d :: '\\' :: label) false true
        | none => none
      else if isEol c then
        match t.eol? i with
        | some after =>
          if (t.blankLine? after).isSome then none
          else (next after).bind fun i => labelFrom? t next fuel i label true seen
        | none => none
      else if isSpace c then labelFrom? t next fuel (i + 1) label true seen
      else
        let label := if blank && seen then ' ' :: label else label
        labelFrom? t next fuel (i + 1) (c :: label) false true

/-- A label whose opening bracket is at `i`; at most 999 characters long. -/
def label? (t : Chars) (next : Nat → Option Nat) (i : Nat) : Option (List Char × Nat) :=
  if t[i]? = some '[' then
    (labelFrom? t next (t.size + 1) (i + 1) [] false false).filter fun (_, stop) =>
      stop - i < 1001
  else none

/-- The destination of a link; parentheses in it are nested at most to a depth. -/
def destination? (t : Chars) (depth i : Nat) : Option Nat :=
  if t[i]? = some '<' then pointed (t.size + 1) (i + 1) else plain (t.size + 1) i 0
where
  escapes (i : Nat) : Bool := t[i]? = some '\\' && t.is Text.isAsciiPunctuation (i + 1)
  pointed : Nat → Nat → Option Nat
    | 0, _ => none
    | fuel + 1, i =>
      match t[i]? with
      | none => none
      | some c =>
        if isEol c || c = '<' then none
        else if c = '>' then some (i + 1)
        else pointed fuel (if escapes i then i + 2 else i + 1)
  plain : Nat → Nat → Nat → Option Nat
    | 0, _, _ => none
    | fuel + 1, i, nest =>
      let stop : Option Nat := if nest = 0 then some i else none
      match t[i]? with
      | none => stop
      | some c =>
        if c.toNat ≤ 0x20 then stop
        else if c = '(' then if nest > depth then none else plain fuel (i + 1) (nest + 1)
        else if c = ')' then if nest = 0 then stop else plain fuel (i + 1) (nest - 1)
        else plain fuel (if escapes i then i + 2 else i + 1) nest

/-- A title in quotes or parentheses; `next` leads over a line end, no line in it is blank. -/
def title? (t : Chars) (next : Nat → Option Nat) (i : Nat) : Option Nat :=
  match t[i]? with
  | some '"' => go '"' (t.size + 1) (i + 1)
  | some '\'' => go '\'' (t.size + 1) (i + 1)
  | some '(' => go ')' (t.size + 1) (i + 1)
  | _ => none
where
  go (close : Char) : Nat → Nat → Option Nat
    | 0, _ => none
    | fuel + 1, i =>
      match t[i]? with
      | none => none
      | some c =>
        if c = close then some (i + 1)
        else if c = '(' && close = ')' then none
        else if c = '\\' && t.is Text.isAsciiPunctuation (i + 1) then go close fuel (i + 2)
        else if isEol c then
          match t.eol? i with
          | some after =>
            if (t.blankLine? after).isSome then none else (next after).bind (go close fuel)
          | none => none
        else go close fuel (i + 1)

end SourceSlices.Markdown
