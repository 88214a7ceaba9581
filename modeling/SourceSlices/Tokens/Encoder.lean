import SourceSlices.Config
import SourceSlices.Error
import SourceSlices.Tokens

/-!
The token counter that the settings ask for. A tokenizer file can be named but is not read here: one
that exists counts as unreadable.
-/
namespace SourceSlices

structure Encoder where
  name : String
  defaultBudget : Nat
  count : Counter

namespace Encoder

def heuristic : Encoder := ⟨Tokens.name, Tokens.defaultBudget, Tokens.count⟩

def ofConfig (config : Config) (fileExists : String → Bool) : Except Error Encoder :=
  match config.tokenizerPath.filter (· ≠ "") with
  | none => .ok heuristic
  | some path =>
    if fileExists path then .error (.tokenizer ("failed to load tokenizer: " ++ path))
    else .error (.tokenizer ("tokenizer file not found: " ++ path))

end Encoder

end SourceSlices
