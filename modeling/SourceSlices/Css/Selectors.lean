import SourceSlices.Text.Lines

/-!
Selector lists: cutting at the commas that stand outside parentheses and brackets.
-/
namespace SourceSlices.Css

/-- Pieces of a list; `depth` counts open brackets and `piece` holds the current piece backwards. -/
def cutSelectors : Int → List Char → List Char → List (List Char)
  | _, piece, [] => [piece.reverse]
  | depth, piece, c :: cs =>
    if c = '(' ∨ c = '[' then cutSelectors (depth + 1) (c :: piece) cs
    else if c = ')' ∨ c = ']' then cutSelectors (depth - 1) (c :: piece) cs
    else if c = ',' ∧ depth ≤ 0 then piece.reverse :: cutSelectors depth [] cs
    else cutSelectors depth (c :: piece) cs

/-- The selectors of a list, blanks collapsed, empty ones left out. -/
def splitSelectors (list : List Char) : List (List Char) :=
  ((cutSelectors 0 [] list).map Text.collapse).filter (!·.isEmpty)

end SourceSlices.Css
