/-!
The total and the ends of a list of numbers. An end is the number that no other passes, and an
empty list has none.
-/
namespace SourceSlices

def total : List Int → Int
  | [] => 0
  | n :: ns => n + total ns

def least? : List Int → Option Int
  | [] => none
  | n :: ns => some (ns.foldl (fun a b => if b < a then b else a) n)

def greatest? : List Int → Option Int
  | [] => none
  | n :: ns => some (ns.foldl (fun a b => if a < b then b else a) n)

end SourceSlices
