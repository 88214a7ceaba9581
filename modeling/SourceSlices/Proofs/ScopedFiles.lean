import Mathlib.Data.List.Lex
import Mathlib.Data.List.Nodup
import Mathlib.Data.String.Basic
import SourceSlices.Proofs.RecordedPaths
import SourceSlices.Proofs.SharedPaths
import SourceSlices.Traversal.Walk

/-!
What a scope leaves of the files of a source. Entries of a scope that lead nowhere or out of the root
are dropped first, and only then it is looked at whether there is a scope. So a scope leaves exactly the
files that its entries lead to, unless it has lost all of its entries: then it leaves every file.
-/

/-!
### Names of entries

In a tree whose directories have proper names a path says by its components which entry it is of, and what
is reached by following a path is the entry under the names that are returned with it.
-/
namespace SourceSlices

namespace Path

open Text

/-- A text that names one entry of a directory. -/
structure IsName (name : String) : Prop where
  filled : name ≠ ""
  dot : name ≠ "."
  dots : name ≠ ".."
  single : '/' ∉ name.toList

theorem isName_iff (name : String) :
    IsName name ↔ name ≠ "" ∧ name ≠ "." ∧ name ≠ ".." ∧ '/' ∉ name.toList :=
  ⟨fun ⟨filled, dot, dots, single⟩ => ⟨filled, dot, dots, single⟩,
    fun ⟨filled, dot, dots, single⟩ => ⟨filled, dot, dots, single⟩⟩

instance (name : String) : Decidable (IsName name) :=
  decidable_of_iff' _ (isName_iff name)

theorem solid_toList {name : String} (proper : IsName name) : solid name.toList = true := by
  have filled : name.toList ≠ [] := by
    intro none
    exact proper.filled (String.toList_eq_nil_iff.1 none)
  have dot : name.toList ≠ ['.'] := by
    intro same
    exact proper.dot (String.ext same)
  simp [solid, filled, dot]

theorem filter_solid_names {names : List String} (proper : ∀ n ∈ names, IsName n) :
    (names.map String.toList).filter solid = names.map String.toList := by
  rw [List.filter_eq_self]
  intro piece mem
  obtain ⟨name, listed, rfl⟩ := List.mem_map.1 mem
  exact solid_toList (proper name listed)

theorem splitOn_relativeText {names : List String} (proper : ∀ n ∈ names, IsName n)
    (some : names ≠ []) :
    splitOn '/' (Traversal.relativeText names).toList = names.map String.toList := by
  have separator : "/".toList = ['/'] := by decide
  rw [Traversal.relativeText, String.toList_intercalate, separator, splitOn_eq]
  apply List.splitOn_intercalate
  · intro piece mem
    obtain ⟨name, listed, rfl⟩ := List.mem_map.1 mem
    exact (proper name listed).single
  · simpa using some

theorem map_ofList_toList (names : List String) :
    (names.map String.toList).map String.ofList = names := by
  simp [List.map_map, Function.comp_def]

theorem components_relativeText {names : List String} (proper : ∀ n ∈ names, IsName n) :
    components (Traversal.relativeText names) = names := by
  cases names with
  | nil => rfl
  | cons first rest =>
    obtain ⟨own, others⟩ := List.forall_mem_cons.1 proper
    have filled : first.toList ≠ [] := by
      intro none
      exact own.filled (String.toList_eq_nil_iff.1 none)
    rw [components_eq, splitOn_relativeText proper (List.cons_ne_nil _ _), List.map_cons, Path.names,
      if_neg filled, filter_solid_names others]
    exact map_ofList_toList (first :: rest)

theorem components_pathText {names : List String} (proper : ∀ n ∈ names, IsName n) :
    components (FileTree.pathText names) = names := by
  have slash : (FileTree.pathText names).toList = '/' :: (Traversal.relativeText names).toList := by
    rw [FileTree.pathText, String.toList_append]
    rfl
  rw [components_eq, slash, splitOn, if_pos rfl, Path.names, if_pos rfl, List.nil_append]
  by_cases none : names = []
  · subst none
    rfl
  · rw [splitOn_relativeText proper none, filter_solid_names proper, map_ofList_toList]

theorem isAbsolute_pathText (names : List String) : isAbsolute (FileTree.pathText names) = true := by
  rw [isAbsolute, FileTree.pathText, String.toList_append]
  rfl

theorem startsWith_pathText {names base : List String} (proper : ∀ n ∈ names, IsName n)
    (proper' : ∀ n ∈ base, IsName n) :
    startsWith (FileTree.pathText names) (FileTree.pathText base) = true ↔ base <+: names := by
  simp [startsWith, isAbsolute_pathText, components_pathText proper, components_pathText proper']

end Path

namespace FileEntry

/-- The entries of every directory have names, no two the same one. -/
inductive Proper : FileEntry → Prop
  | file (bytes : List UInt8) (modified : Int) : Proper (.file bytes modified)
  | link (target : String) : Proper (.link target)
  | dir {entries : List (String × FileEntry)} (named : ∀ x ∈ entries, Path.IsName x.1)
      (distinct : (entries.map (·.1)).Nodup) (within : ∀ x ∈ entries, Proper x.2) :
      Proper (.dir entries)

theorem proper_at {e x : FileEntry} {place : List String} (proper : e.Proper)
    (there : e.at? place = some x) : (∀ n ∈ place, Path.IsName n) ∧ x.Proper := by
  induction place generalizing e with
  | nil =>
    cases there
    exact ⟨by simp, proper⟩
  | cons name rest ih =>
    obtain ⟨y, child, below⟩ := Option.bind_eq_some_iff.1 there
    cases proper with
    | file => cases child
    | link => cases child
    | @dir entries named distinct within =>
      obtain ⟨z, found, rfl⟩ := Option.map_eq_some_iff.1 child
      have mem := List.mem_of_find?_eq_some found
      have same : z.1 = name := by simpa using List.find?_some found
      obtain ⟨others, last⟩ := ih (within z mem) below
      exact ⟨List.forall_mem_cons.2 ⟨same ▸ named z mem, others⟩, last⟩

end FileEntry

namespace FileTree

/-- The entry that is returned stands under the names that are returned with it. -/
theorem at?_of_walk {top : FileEntry} {followLast : Bool} {links : Nat}
    {place todo found : List String} {e : Option FileEntry}
    (led : walk top followLast links place todo = .ok (found, e)) : top.at? found = e := by
  fun_induction walk top followLast links place todo with
  | case1 links place =>
    cases led
    rfl
  | case2 links place rest ih => exact ih led
  | case3 links place rest dots ih => exact ih led
  | case4 links place name rest _ _ absent last =>
    cases led
    exact absent
  | case6 links place name rest _ _ entries there ih => exact ih led
  | case7 links place name rest _ _ bytes n there last =>
    cases led
    exact there
  | case9 links place name rest _ _ target there last =>
    cases led
    exact there
  | case11 place name rest _ _ target there further links ih => exact ih led
  | case5 => cases led
  | case8 => cases led
  | case10 => cases led

variable {t : FileTree} {path : String} {place : List String}

theorem at?_of_locate {followLast : Bool} {e : Option FileEntry}
    (led : t.locate path followLast = .ok (place, e)) : t.top.at? place = e :=
  at?_of_walk led

theorem at?_of_place (led : t.place path = .ok place) : ∃ e, t.top.at? place = some e := by
  unfold FileTree.place at led
  rcases located : t.locate path true with fault | ⟨q, _ | e⟩
  · rw [located] at led
    cases led
  · rw [located] at led
    cases led
  · rw [located] at led
    cases led
    exact ⟨e, at?_of_locate located⟩

end FileTree

end SourceSlices

namespace SourceSlices.Traversal

open SourceSlices.Path FileEntry

variable {w : Traversal} {t : FileTree} {scope : List String}

/-! ### The walk -/

/-- Files below a directory, each of them once. -/
structure Below (dir : List String) (found : List (List String)) : Prop where
  distinct : found.Nodup
  named : ∀ r ∈ found, ∃ names, r = dir ++ names ∧ ∀ n ∈ names, IsName n

theorem below_nil (dir : List String) : Below dir [] where
  distinct := List.nodup_nil
  named r mem := by cases mem

theorem below_self (dir : List String) : Below dir [dir] where
  distinct := List.nodup_singleton dir
  named r mem := ⟨[], by simpa using mem, by simp⟩

/-- Entries with different names have no file in common. -/
theorem below_flatMap {dir : List String} {entries : List (String × FileEntry)}
    {visit : String × FileEntry → List (List String)} (named : ∀ x ∈ entries, IsName x.1)
    (distinct : (entries.map (·.1)).Nodup)
    (each : ∀ x ∈ entries, Below (dir ++ [x.1]) (visit x)) : Below dir (entries.flatMap visit) := by
  constructor
  · rw [List.nodup_flatMap]
    refine ⟨fun x mem => (each x mem).distinct, ?_⟩
    refine (List.pairwise_map.1 distinct).imp_of_mem ?_
    intro x y memX memY apart r inX inY
    obtain ⟨namesX, rfl, -⟩ := (each x memX).named r inX
    obtain ⟨namesY, same, -⟩ := (each y memY).named _ inY
    rw [List.append_assoc, List.append_assoc] at same
    exact apart (List.cons.inj (List.append_cancel_left same)).1
  · intro r mem
    obtain ⟨x, there, inside⟩ := List.mem_flatMap.1 mem
    obtain ⟨names, rfl, proper⟩ := (each x there).named r inside
    refine ⟨x.1 :: names, by simp, ?_⟩
    exact List.forall_mem_cons.2 ⟨named x there, proper⟩

theorem proper_target (proper : t.top.Proper) {places : List (List String)} {name : String}
    {e e' : FileEntry} {place : List String} (own : e.Proper)
    (target : w.target? t places name e = some (place, e')) : e'.Proper := by
  cases own with
  | file => cases target; exact .file _ _
  | dir named distinct within => cases target; exact .dir named distinct within
  | link text =>
    simp only [target?] at target
    split at target
    · split at target
      · rename_i q x led
        split at target
        · cases target
        · cases target
          exact (proper_at proper (FileTree.at?_of_locate led)).2
      · cases target
    · cases target

theorem below_filesBelow (proper : t.top.Proper) {fuel : Nat} {places : List (List String)}
    {levels : List Level} {dir : List String} {e : FileEntry} (own : e.Proper) :
    Below dir (w.filesBelow t fuel places levels dir e) := by
  induction fuel generalizing places levels dir e with
  | zero =>
    rw [filesBelow.eq_def]
    exact below_nil dir
  | succ fuel ih =>
    cases own with
    | file => exact below_nil dir
    | link => exact below_nil dir
    | @dir entries named distinct within =>
      rw [filesBelow]
      refine below_flatMap named distinct ?_
      intro x mem
      dsimp only
      split
      · exact below_nil _
      · rename_i place e' target
        split
        · exact below_nil _
        · split
          · exact ih (proper_target proper (within x mem) target)
          · exact below_self _

/-! ### The scope -/

/-- An entry of a scope leads to a place inside the root. -/
def Resolves (w : Traversal) (t : FileTree) (entry : String) (place : List String) : Prop :=
  t.place (Path.join (FileTree.pathText w.root) entry) = .ok place ∧ w.root <+: place

/-- An entry of a scope leads to a file, or to a directory that the file is below. -/
def InScope (w : Traversal) (t : FileTree) (scope : List String) (f : FoundFile) : Prop :=
  ∃ entry ∈ scope, ∃ place, w.Resolves t entry place ∧
    startsWith f.path (FileTree.pathText place) = true

theorem mem_scopePlaces_iff {place : List String} :
    place ∈ w.scopePlaces t scope ↔ ∃ entry ∈ scope, w.Resolves t entry place := by
  simp only [scopePlaces, List.mem_filterMap, Resolves]
  refine exists_congr fun entry => and_congr_right fun _ => ?_
  cases t.place (Path.join (FileTree.pathText w.root) entry) with
  | error fault => simp
  | ok q =>
    simp only [Option.ite_none_right_eq_some, Option.some.injEq, List.isPrefixOf_iff_prefix,
      Except.ok.injEq]
    constructor
    · rintro ⟨inside, rfl⟩
      exact ⟨rfl, inside⟩
    · rintro ⟨rfl, inside⟩
      exact ⟨inside, rfl⟩

theorem proper_of_resolves (proper : t.top.Proper) {entry : String} {place : List String}
    (resolves : w.Resolves t entry place) : ∀ n ∈ place, IsName n := by
  obtain ⟨e, there⟩ := FileTree.at?_of_place resolves.1
  exact (proper_at proper there).1

/-- Names below the root that the walk finds, whatever the scope is. -/
def walked (w : Traversal) (t : FileTree) : List (List String) :=
  match t.top.at? w.root with
  | none => []
  | some top => w.filesBelow t ((t.top.count + 1) * (t.top.count + 1)) [w.root] [] [] top

/-- A file as it is returned. -/
def foundFile (w : Traversal) (names : List String) : FoundFile :=
  ⟨FileTree.pathText (w.root ++ names), relativeText names⟩

theorem files_eq (w : Traversal) (t : FileTree) (scope : List String) : w.files t scope =
    (((w.walked t).filter fun names => (w.scopePlaces t scope).isEmpty ||
      (w.scopePlaces t scope).any fun s => s.isPrefixOf (w.root ++ names)).mergeSort
        fun a b => !decide (b < a)).map w.foundFile := by
  cases there : t.top.at? w.root with
  | none => simp [files, walked, there]
  | some top =>
    simp only [files, walked, there]
    rfl

theorem mem_files_iff {f : FoundFile} : f ∈ w.files t scope ↔ ∃ names ∈ w.walked t,
    (w.scopePlaces t scope = [] ∨ ∃ s ∈ w.scopePlaces t scope, s <+: w.root ++ names) ∧
      w.foundFile names = f := by
  simp [files_eq, and_assoc]

theorem below_walked (proper : t.top.Proper) : Below [] (w.walked t) := by
  unfold walked
  split
  · exact below_nil []
  · rename_i top there
    exact below_filesBelow proper (proper_at proper there).2

theorem names_walked (proper : t.top.Proper) {names : List String} (mem : names ∈ w.walked t) :
    (∀ n ∈ names, IsName n) ∧ ∀ n ∈ w.root ++ names, IsName n := by
  obtain ⟨_, rfl, own⟩ := (below_walked proper).named names mem
  refine ⟨own, List.forall_mem_append.2 ⟨?_, own⟩⟩
  unfold walked at mem
  split at mem
  · cases mem
  · rename_i top there
    exact (proper_at proper there).1

theorem inScope_iff (proper : t.top.Proper) {names : List String} (mem : names ∈ w.walked t) :
    w.InScope t scope (w.foundFile names) ↔
      ∃ s ∈ w.scopePlaces t scope, s <+: w.root ++ names := by
  have own := (names_walked proper mem).2
  constructor
  · rintro ⟨entry, listed, place, resolves, inside⟩
    rw [foundFile, startsWith_pathText own (proper_of_resolves proper resolves)] at inside
    exact ⟨place, mem_scopePlaces_iff.2 ⟨entry, listed, resolves⟩, inside⟩
  · rintro ⟨place, there, inside⟩
    obtain ⟨entry, listed, resolves⟩ := mem_scopePlaces_iff.1 there
    refine ⟨entry, listed, place, resolves, ?_⟩
    rwa [foundFile, startsWith_pathText own (proper_of_resolves proper resolves)]

/-- Whatever the scope is, files are returned in the order of their names, each of them once. -/
theorem files_ascending (proper : t.top.Proper) (scope : List String) :
    (w.files t scope).Pairwise fun f g => components f.relative < components g.relative := by
  rw [files_eq, List.pairwise_map]
  generalize picked : (w.walked t).filter _ = found
  have listed : ∀ names ∈ found, names ∈ w.walked t := by
    intro names mem
    rw [← picked] at mem
    exact List.mem_of_mem_filter mem
  have once : found.Nodup := by
    rw [← picked]
    exact (below_walked proper).distinct.filter _
  have sorted := @List.pairwise_mergeSort _ (fun a b : List String => !decide (b < a))
    (fun a b c ab bc => by simpa using le_trans (by simpa using ab) (by simpa using bc))
    (fun a b => by simpa using le_total a b) found
  have apart : (found.mergeSort fun a b => !decide (b < a)).Nodup :=
    (List.mergeSort_perm found _).nodup_iff.2 once
  refine (sorted.and apart).imp_of_mem ?_
  intro a b memA memB both
  have read {names : List String} (mem : names ∈ found.mergeSort fun a b => !decide (b < a)) :
      components (w.foundFile names).relative = names :=
    components_relativeText (names_walked proper (listed names (List.mem_mergeSort.1 mem))).1
  rw [read memA, read memB]
  exact lt_of_le_of_ne (by simpa using both.1) both.2

theorem scopePlaces_eq_nil_iff :
    w.scopePlaces t scope = [] ↔ ¬ ∃ entry ∈ scope, ∃ place, w.Resolves t entry place := by
  rw [List.eq_nil_iff_forall_not_mem]
  simp only [mem_scopePlaces_iff]
  constructor
  · rintro none ⟨entry, listed, place, resolves⟩
    exact none place ⟨entry, listed, resolves⟩
  · rintro none place ⟨entry, listed, resolves⟩
    exact none ⟨entry, listed, place, resolves⟩

theorem files_unresolved (none : ¬ ∃ entry ∈ scope, ∃ place, w.Resolves t entry place) :
    w.files t scope = w.files t [] := by
  have dropped : w.scopePlaces t scope = w.scopePlaces t [] := scopePlaces_eq_nil_iff.2 none
  rw [files_eq, files_eq, dropped]

theorem mem_files_resolved (proper : t.top.Proper)
    (some : ∃ entry ∈ scope, ∃ place, w.Resolves t entry place) (f : FoundFile) :
    f ∈ w.files t scope ↔ f ∈ w.files t [] ∧ w.InScope t scope f := by
  have kept : w.scopePlaces t scope ≠ [] := by
    intro none
    exact scopePlaces_eq_nil_iff.1 none some
  rw [mem_files_iff, mem_files_iff]
  constructor
  · rintro ⟨names, mem, inside, rfl⟩
    exact ⟨⟨names, mem, .inl rfl, rfl⟩, (inScope_iff proper mem).2 (inside.resolve_left kept)⟩
  · rintro ⟨⟨names, mem, -, rfl⟩, inside⟩
    exact ⟨names, mem, .inr ((inScope_iff proper mem).1 inside), rfl⟩

/-- A scope with an entry inside the root leaves exactly the files that its entries lead to. One that
has no such entry leaves every file, so that it is a filter only where there is no file at all. -/
theorem scope_filters_iff (w : Traversal) (proper : t.top.Proper) (scope : List String) :
    (w.files t scope).Pairwise (fun f g => components f.relative < components g.relative) ∧
    ((∀ f, f ∈ w.files t scope ↔ f ∈ w.files t [] ∧ w.InScope t scope f) ↔
      (∃ entry ∈ scope, ∃ place, w.Resolves t entry place) ∨ w.files t [] = []) ∧
    ((¬ ∃ entry ∈ scope, ∃ place, w.Resolves t entry place) → w.files t scope = w.files t []) := by
  refine ⟨files_ascending proper scope, ?_, files_unresolved⟩
  constructor
  · intro filters
    by_contra neither
    obtain ⟨none, some⟩ := not_or.1 neither
    obtain ⟨f, mem⟩ := List.exists_mem_of_ne_nil _ some
    rw [← files_unresolved none] at mem
    obtain ⟨entry, listed, place, resolves, -⟩ := ((filters f).1 mem).2
    exact none ⟨entry, listed, place, resolves⟩
  · rintro (some | empty)
    · exact mem_files_resolved proper some
    · intro f
      by_cases some : ∃ entry ∈ scope, ∃ place, w.Resolves t entry place
      · exact mem_files_resolved proper some f
      · rw [files_unresolved some, empty]
        simp

/-- A file in a directory and one beside it. -/
def guideAndNotes : FileTree where
  top := .dir [("docs", .dir [("guide.txt", .file [] 0)]), ("notes.txt", .file [] 0)]

/-- A walk from the topmost directory. -/
def fromTop : Traversal := ⟨[], .workspace, [], false⟩

theorem proper_guideAndNotes : guideAndNotes.top.Proper := by
  have guide : (FileEntry.dir [("guide.txt", .file [] 0)]).Proper :=
    .dir (by decide) (by decide) (by simpa using .file [] 0)
  exact .dir (by decide) (by decide) (by simpa using ⟨guide, .file [] 0⟩)

theorem resolves_docs : fromTop.Resolves guideAndNotes "docs" ["docs"] := by
  have located : guideAndNotes.locate "/docs" true =
      .ok (["docs"], some (.dir [("guide.txt", .file [] 0)])) :=
    FileTree.locate_direct true (by decide +kernel) rfl (fun _ same => by cases same) (by decide)
  have path : Path.join (FileTree.pathText fromTop.root) "docs" = "/docs" := by decide +kernel
  rw [Resolves, path]
  exact ⟨by simp [FileTree.place, located, bind, Except.bind], List.nil_prefix⟩

theorem missing_unresolved (place : List String) :
    ¬ fromTop.Resolves guideAndNotes "missing" place := by
  have located : guideAndNotes.locate "/missing" true = .ok (["missing"], none) :=
    FileTree.locate_new (by decide +kernel) (by rfl) (by decide)
  have path : Path.join (FileTree.pathText fromTop.root) "missing" = "/missing" := by decide +kernel
  rw [Resolves, path]
  simp [FileTree.place, located, bind, Except.bind]

/-- The guide is left and the notes are not; that one of the entries is missing does not matter. -/
theorem docs_scope_filters : guideAndNotes.top.Proper ∧
    (∃ entry ∈ ["docs", "missing"], ∃ place, fromTop.Resolves guideAndNotes entry place) ∧
    (∀ f, f ∈ fromTop.files guideAndNotes ["docs", "missing"] ↔
      f ∈ fromTop.files guideAndNotes [] ∧ fromTop.InScope guideAndNotes ["docs", "missing"] f) ∧
    ⟨"/docs/guide.txt", "docs/guide.txt"⟩ ∈ fromTop.files guideAndNotes ["docs", "missing"] ∧
    ⟨"/notes.txt", "notes.txt"⟩ ∉ fromTop.files guideAndNotes ["docs", "missing"] := by
  have some : ∃ entry ∈ ["docs", "missing"], ∃ place, fromTop.Resolves guideAndNotes entry place :=
    ⟨"docs", List.mem_cons_self, ["docs"], resolves_docs⟩
  have filters :=
    (scope_filters_iff fromTop proper_guideAndNotes ["docs", "missing"]).2.1.2 (.inl some)
  refine ⟨proper_guideAndNotes, some, filters, ?_, ?_⟩
  · have walked : ["docs", "guide.txt"] ∈ fromTop.walked guideAndNotes := by decide +kernel
    have docs : ["docs"] ∈ fromTop.scopePlaces guideAndNotes ["docs", "missing"] :=
      mem_scopePlaces_iff.2 ⟨"docs", List.mem_cons_self, resolves_docs⟩
    exact mem_files_iff.2 ⟨_, walked, .inr ⟨["docs"], docs, by decide⟩, by decide +kernel⟩
  · intro found
    obtain ⟨-, entry, listed, place, resolves, inside⟩ := (filters _).1 found
    rcases List.mem_pair.1 listed with rfl | rfl
    · obtain rfl := Except.ok.inj (resolves.1.symm.trans resolves_docs.1)
      revert inside
      decide +kernel
    · exact missing_unresolved place resolves

/-- The notes are found in a scope that has only a missing entry. -/
theorem missing_scope_opens_all : guideAndNotes.top.Proper ∧
    ⟨"/notes.txt", "notes.txt"⟩ ∈ fromTop.files guideAndNotes ["missing"] ∧
    ¬ ∀ f, f ∈ fromTop.files guideAndNotes ["missing"] ↔
      f ∈ fromTop.files guideAndNotes [] ∧ fromTop.InScope guideAndNotes ["missing"] f := by
  have none : ¬ ∃ entry ∈ ["missing"], ∃ place, fromTop.Resolves guideAndNotes entry place := by
    rintro ⟨entry, listed, place, resolves⟩
    rw [List.mem_singleton.1 listed] at resolves
    exact missing_unresolved place resolves
  have walked : ["notes.txt"] ∈ fromTop.walked guideAndNotes := by decide +kernel
  have found : ⟨"/notes.txt", "notes.txt"⟩ ∈ fromTop.files guideAndNotes ["missing"] :=
    mem_files_iff.2 ⟨["notes.txt"], walked, .inl (scopePlaces_eq_nil_iff.2 none), by decide +kernel⟩
  refine ⟨proper_guideAndNotes, found, ?_⟩
  intro filters
  obtain ⟨-, entry, listed, place, resolves, -⟩ := (filters _).1 found
  exact none ⟨entry, listed, place, resolves⟩

end SourceSlices.Traversal
