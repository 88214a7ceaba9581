import SourceSlices.Css.Grammar
import SourceSlices.Html.Grammar
import SourceSlices.Markdown.Reader
import SourceSlices.Python.Grammar
import SourceSlices.Reading
import SourceSlices.Script.Typed

/-!
The readers of all languages.
-/
namespace SourceSlices

def grammars : Readers where
  css := Css.tree
  html := Html.tree
  python := Python.tree
  javascript := Script.tree
  typescript := Script.Typed.tree
  tsx := Script.Typed.markupTree
  markdown := Markdown.events

end SourceSlices
