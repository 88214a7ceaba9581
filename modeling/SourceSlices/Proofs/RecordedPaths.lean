import Mathlib.Data.List.Basic
import SourceSlices.Run.Plan

/-!
The path under which a file is recorded has slashes for backslashes. Paths with the same components
are recorded under paths with the same components: a name that is divided further is divided the same
way wherever it stands.
-/
namespace SourceSlices

namespace Text

variable {sep : Char}

theorem splitOn_eq (sep : Char) (cs : List Char) : splitOn sep cs = cs.splitOn sep := by
  induction cs with
  | nil => rw [splitOn, List.splitOn_nil]
  | cons c cs ih =>
    rw [splitOn, List.splitOn_cons_eq_if_modifyHead, ih]
    obtain ⟨piece, rest, pieces⟩ := List.exists_cons_of_ne_nil (List.splitOn_ne_nil sep cs)
    simp only [pieces, List.modifyHead_cons, beq_iff_eq]

theorem splitOn_cons (sep : Char) (cs : List Char) :
    ∃ first rest, splitOn sep cs = first :: rest := by
  rw [splitOn_eq]
  exact List.exists_cons_of_ne_nil (List.splitOn_ne_nil sep cs)

theorem not_mem_of_mem_splitOn {cs piece : List Char} (mem : piece ∈ splitOn sep cs) :
    sep ∉ piece := by
  induction cs generalizing piece with
  | nil => simp_all [splitOn]
  | cons c cs ih =>
    obtain ⟨first, rest, pieces⟩ := splitOn_cons sep cs
    rw [splitOn, pieces] at mem
    rw [pieces] at ih
    split at mem
    · rcases List.mem_cons.1 mem with rfl | mem
      · exact List.not_mem_nil
      · exact ih mem
    · rename_i other
      rcases List.mem_cons.1 mem with rfl | mem
      · exact List.not_mem_cons_of_ne_of_not_mem (Ne.symm other) (ih List.mem_cons_self)
      · exact ih (List.mem_cons_of_mem _ mem)

theorem eq_nil_of_splitOn {cs : List Char} (lone : splitOn sep cs = [[]]) : cs = [] :=
  calc
    cs = [sep].intercalate (cs.splitOn sep) := (List.intercalate_splitOn sep).symm
    _ = [] := by rw [← splitOn_eq, lone, List.intercalate_singleton]

/-- A map of the characters that keeps the separator divides each piece further. -/
theorem splitOn_map {f : Char → Char} (keeps : f sep = sep) (cs : List Char) :
    splitOn sep (cs.map f) = (splitOn sep cs).flatMap fun piece => splitOn sep (piece.map f) := by
  induction cs with
  | nil => rfl
  | cons c cs ih =>
    by_cases same : c = sep
    · simp [splitOn, same, keeps, ih]
    · obtain ⟨first, rest, pieces⟩ := splitOn_cons sep cs
      rw [pieces, List.flatMap_cons] at ih
      simp only [splitOn, same, if_false, pieces, List.flatMap_cons, List.map_cons, ih]
      by_cases made : f c = sep
      · simp [made]
      · obtain ⟨first', rest', pieces'⟩ := splitOn_cons sep (first.map f)
        simp [made, pieces']

end Text

namespace Path

open Text

/-! ### Components -/

/-- A name that counts wherever it stands. -/
def solid (name : List Char) : Bool := name ≠ [] ∧ name ≠ ['.']

/-- The components of a path, from its pieces between slashes. -/
def names : List (List Char) → List (List Char)
  | [] => []
  | first :: rest => (if first = [] then [] else [first]) ++ rest.filter solid

theorem ofList_eq_empty_iff {cs : List Char} : String.ofList cs = "" ↔ cs = [] :=
  ⟨fun same => by simpa using congrArg String.toList same, fun same => by rw [same]⟩

theorem ofList_eq_dot_iff {cs : List Char} : String.ofList cs = "." ↔ cs = ['.'] :=
  ⟨fun same => by simpa using congrArg String.toList same, fun same => by rw [same]⟩

/-- After the first piece, exactly the solid ones are components. -/
theorem filterMap_later (pieces : List (List Char)) {n : Nat} (later : n ≠ 0) :
    ((pieces.map String.ofList).zipIdx n).filterMap (fun (p, i) =>
      if p = "" then none else if p = "." ∧ i ≠ 0 then none else some p) =
      (pieces.filter solid).map String.ofList := by
  induction pieces generalizing n with
  | nil => rfl
  | cons piece rest ih =>
    rw [List.map_cons, List.zipIdx_cons, List.filterMap_cons, ih (Nat.succ_ne_zero n)]
    simp only [ofList_eq_empty_iff, ofList_eq_dot_iff]
    by_cases empty : piece = []
    · simp [empty, solid]
    · by_cases dot : piece = ['.']
      · simp [dot, later, solid]
      · simp [empty, dot, solid]

theorem components_eq (path : String) :
    components path = (names (splitOn '/' path.toList)).map String.ofList := by
  obtain ⟨first, rest, pieces⟩ := splitOn_cons '/' path.toList
  simp only [components, pieces, List.map_cons, List.zipIdx_cons, List.filterMap_cons,
    filterMap_later rest (Nat.succ_ne_zero 0), ofList_eq_empty_iff, names]
  split <;> simp_all

theorem isAbsolute_iff {path : String} {first : List Char} {rest : List (List Char)}
    (pieces : splitOn '/' path.toList = first :: rest) :
    isAbsolute path = true ↔ first = [] ∧ rest ≠ [] := by
  rw [isAbsolute, beq_iff_eq]
  cases cs : path.toList with
  | nil =>
    rw [cs, splitOn] at pieces
    cases pieces
    simp
  | cons c cs' =>
    obtain ⟨first', rest', pieces'⟩ := splitOn_cons '/' cs'
    rw [cs, splitOn, pieces'] at pieces
    split at pieces <;> cases pieces <;> simp_all

/-! ### Keys -/

theorem mem_of_mem_names {pieces : List (List Char)} {name : List Char} (mem : name ∈ names pieces) :
    name ∈ pieces := by
  cases pieces with
  | nil => cases mem
  | cons first rest =>
    rw [names] at mem
    rcases List.mem_append.1 mem with here | later
    · split at here
      · cases here
      · exact List.mem_singleton.1 here ▸ List.mem_cons_self
    · exact List.mem_cons_of_mem _ (List.mem_filter.1 later).1

theorem splitOn_names (cs : List Char) (some : names (splitOn '/' cs) ≠ []) :
    splitOn '/' (['/'].intercalate (names (splitOn '/' cs))) = names (splitOn '/' cs) := by
  rw [splitOn_eq]
  exact List.splitOn_intercalate '/'
    (fun _ mem => not_mem_of_mem_splitOn (mem_of_mem_names mem)) some

theorem key_toList (path : String) : (key path).toList = (if isAbsolute path then ['/'] else []) ++
    ['/'].intercalate (names (splitOn '/' path.toList)) := by
  have texts (pieces : List (List Char)) : (pieces.map String.ofList).map String.toList = pieces := by
    simp [List.map_map, Function.comp_def]
  rw [key, String.toList_append, String.toList_intercalate, components_eq, texts]
  split <;> rfl

theorem filter_solid (pieces : List (List Char)) :
    (pieces.filter solid).filter solid = pieces.filter solid := by
  rw [List.filter_filter]
  simp only [Bool.and_self]

/-- The key of a path is a path with the same components. -/
theorem key_parts (path : String) :
    isAbsolute (key path) = isAbsolute path ∧ components (key path) = components path := by
  obtain ⟨first, rest, pieces⟩ := splitOn_cons '/' path.toList
  have absolute := isAbsolute_iff pieces
  have text := key_toList path
  have divided := splitOn_names path.toList
  rw [Bool.eq_iff_iff, components_eq, components_eq, absolute]
  rw [pieces] at text divided ⊢
  -- Only a path that begins with an empty piece can be absolute, and it is unless that is all of it.
  by_cases top : first = []
  · subst top
    by_cases alone : rest = []
    · subst alone
      have relative : isAbsolute path = false := by simpa using absolute
      have again : splitOn '/' (key path).toList = [[]] := by
        rw [text, relative]
        rfl
      exact ⟨by rw [isAbsolute_iff again], by rw [again]⟩
    · have rooted : isAbsolute path = true := absolute.2 ⟨rfl, alone⟩
      have again : splitOn '/' (key path).toList =
          [] :: splitOn '/' (['/'].intercalate (rest.filter solid)) := by
        rw [text, rooted]
        rfl
      obtain ⟨piece, more, below⟩ := splitOn_cons '/' (['/'].intercalate (rest.filter solid))
      refine ⟨by rw [isAbsolute_iff again, below]; simp [alone], ?_⟩
      rw [again]
      by_cases none : rest.filter solid = []
      · simp [names, none, solid, splitOn]
      · have same : splitOn '/' (['/'].intercalate (rest.filter solid)) = rest.filter solid := divided none
        simp only [same, names, if_true, List.nil_append, filter_solid]
  · have relative : isAbsolute path = false := by simpa [top] using absolute
    have again : splitOn '/' (key path).toList = first :: rest.filter solid := by
      have named : names (first :: rest) = first :: rest.filter solid := by simp [names, top]
      rw [text, relative, named]
      rw [named] at divided
      exact divided (List.cons_ne_nil _ _)
    refine ⟨by rw [isAbsolute_iff again]; simp [top], ?_⟩
    rw [again, names, names, filter_solid]

/-- Pieces of two paths that differ at most by pieces without meaning after the first slash. -/
structure Similar (pieces pieces' : List (List Char)) : Prop where
  first : pieces.head? = pieces'.head?
  later : pieces.tail.filter solid = pieces'.tail.filter solid
  alone : pieces.head? = some [] → (pieces.tail = [] ↔ pieces'.tail = [])

variable {path path' : String}

theorem key_of_similar (similar : Similar (splitOn '/' path.toList) (splitOn '/' path'.toList)) :
    key path = key path' := by
  obtain ⟨first, rest, pieces⟩ := splitOn_cons '/' path.toList
  obtain ⟨first', rest', pieces'⟩ := splitOn_cons '/' path'.toList
  rw [pieces, pieces'] at similar
  obtain ⟨head, later, alone⟩ := similar
  cases head
  have absolute : isAbsolute path = isAbsolute path' := by
    rw [Bool.eq_iff_iff, isAbsolute_iff pieces, isAbsolute_iff pieces']
    exact and_congr_right fun empty => not_congr (alone (congrArg some empty))
  rw [key, key, components_eq, components_eq, absolute, pieces, pieces', names, names,
    show rest.filter solid = rest'.filter solid from later]

theorem similar_of_key (same : key path = key path') :
    Similar (splitOn '/' path.toList) (splitOn '/' path'.toList) := by
  obtain ⟨first, rest, pieces⟩ := splitOn_cons '/' path.toList
  obtain ⟨first', rest', pieces'⟩ := splitOn_cons '/' path'.toList
  have absolute : isAbsolute path = isAbsolute path' := by
    rw [← (key_parts path).1, same, (key_parts path').1]
  have named : names (splitOn '/' path.toList) = names (splitOn '/' path'.toList) := by
    refine List.map_injective_iff.2 (fun _ _ => String.ofList_inj.1) ?_
    rw [← components_eq, ← components_eq, ← (key_parts path).2, same, (key_parts path').2]
  rw [pieces, pieces', names, names] at named
  rw [Bool.eq_iff_iff, isAbsolute_iff pieces, isAbsolute_iff pieces'] at absolute
  rw [pieces, pieces']
  by_cases top : first = [] <;> by_cases top' : first' = []
  · subst top top'
    exact ⟨rfl, named, fun _ => not_iff_not.1 (by simpa using absolute)⟩
  · simp_all
  · simp_all
  · simp only [top, top', if_false, List.singleton_append, List.cons.injEq] at named
    obtain ⟨rfl, later⟩ := named
    exact ⟨rfl, later, fun empty => absurd (Option.some.inj empty) top⟩

/-! ### Slashes for backslashes -/

/-- The pieces of a name between backslashes. -/
def divided (name : List Char) : List (List Char) := splitOn '/' (replaceChar '\\' '/' name)

theorem splitOn_displayPath (path : String) : splitOn '/' (Runner.displayPath path).toList =
    (splitOn '/' path.toList).flatMap divided := by
  rw [Runner.displayPath, String.toList_ofList]
  exact splitOn_map (f := fun c => if c = '\\' then '/' else c) (by decide) path.toList

theorem filter_divided (pieces : List (List Char)) : (pieces.flatMap divided).filter solid =
    ((pieces.filter solid).flatMap divided).filter solid := by
  induction pieces with
  | nil => rfl
  | cons piece rest ih =>
    rw [List.flatMap_cons, List.filter_append, ih]
    by_cases counts : solid piece = true
    · rw [List.filter_cons_of_pos counts, List.flatMap_cons, List.filter_append]
    · have none : (divided piece).filter solid = [] := by
        obtain rfl | rfl : piece = [] ∨ piece = ['.'] := by
          simpa [solid, Classical.or_iff_not_imp_left] using counts
        all_goals rfl
      rw [List.filter_cons_of_neg counts, none, List.nil_append]

theorem flatMap_divided_nil_iff {names : List (List Char)} : names.flatMap divided = [] ↔ names = [] := by
  constructor
  · intro empty
    cases names with
    | nil => rfl
    | cons name more =>
      obtain ⟨first, rest, pieces⟩ := splitOn_cons '/' (replaceChar '\\' '/' name)
      rw [List.flatMap_cons, show divided name = first :: rest from pieces] at empty
      cases empty
  · rintro rfl
    rfl

theorem similar_divided {pieces pieces' : List (List Char)} (similar : Similar pieces pieces') :
    Similar (pieces.flatMap divided) (pieces'.flatMap divided) := by
  obtain ⟨head, later, alone⟩ := similar
  cases pieces with
  | nil =>
    cases pieces' with
    | nil => exact ⟨rfl, rfl, fun _ => Iff.rfl⟩
    | cons first' rest' => cases head
  | cons first rest =>
    cases pieces' with
    | nil => cases head
    | cons first' rest' =>
      cases head
      obtain ⟨part, parts, pieces⟩ := splitOn_cons '/' (replaceChar '\\' '/' first)
      rw [List.flatMap_cons, List.flatMap_cons, show divided first = part :: parts from pieces]
      refine ⟨rfl, ?_, fun empty => ?_⟩
      · simp only [List.cons_append, List.tail_cons, List.filter_append] at later ⊢
        rw [filter_divided rest, filter_divided rest', later]
      · simp only [List.cons_append, List.tail_cons, List.append_eq_nil_iff,
          flatMap_divided_nil_iff]
        refine and_congr_right fun whole => alone ?_
        have text : replaceChar '\\' '/' first = [] :=
          eq_nil_of_splitOn (by rw [pieces, whole, Option.some.inj empty])
        rw [List.map_eq_nil_iff.1 text]
        rfl

/-- Paths with the same components still have the same components after slashes replace backslashes. -/
theorem key_displayPath (same : key path = key path') :
    key (Runner.displayPath path) = key (Runner.displayPath path') := by
  refine key_of_similar ?_
  rw [splitOn_displayPath, splitOn_displayPath]
  exact similar_divided (similar_of_key same)

end Path

end SourceSlices
