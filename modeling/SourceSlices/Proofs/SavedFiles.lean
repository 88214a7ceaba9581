import SourceSlices.Proofs.RecordedPaths
import SourceSlices.Proofs.SharedPaths

/-!
Files that are written beside their place and then moved there. Whatever links there are on the way, a
path that can be read after that leads to what was written: the move takes the draft away and puts it
in the place of the old file, so a path that went through one of them now ends there or runs in circles.
-/
namespace SourceSlices

namespace Text

/-- More text without separators goes to the last piece. -/
theorem splitOn_append {sep : Char} {more : List Char} (free : sep ∉ more) (cs : List Char) :
    ∃ front last, splitOn sep cs = front ++ [last] ∧
      splitOn sep (cs ++ more) = front ++ [last ++ more] := by
  induction cs with
  | nil =>
    refine ⟨[], [], rfl, ?_⟩
    induction more with
    | nil => rfl
    | cons c more ih =>
      obtain ⟨other, free⟩ := List.ne_and_not_mem_of_not_mem_cons free
      rw [List.nil_append, splitOn, if_neg other.symm, ← List.nil_append more, ih free]
      rfl
  | cons c cs ih =>
    obtain ⟨front, last, pieces, longer⟩ := ih
    rw [List.cons_append, splitOn, splitOn, pieces, longer]
    split
    · exact ⟨[] :: front, last, rfl, rfl⟩
    · cases front with
      | nil => exact ⟨[], c :: last, rfl, rfl⟩
      | cons piece front => exact ⟨(c :: piece) :: front, last, rfl, rfl⟩

end Text

namespace FileEntry

/-- An entry without what is in it, if it is a directory. -/
def face : FileEntry → FileEntry
  | .dir _ => .dir []
  | e => e

variable {top : FileEntry} {place q : List String} {name : String} {v : Option FileEntry}

theorem child?_map {f : String × FileEntry → String × FileEntry} (names : ∀ x, (f x).1 = x.1)
    (entries : List (String × FileEntry)) (other : String) :
    (FileEntry.dir (entries.map f)).child? other =
      (entries.find? (·.1 = other)).map fun x => (f x).2 := by
  simp only [child?, List.find?_map, Function.comp_def, names, Option.map_map]

theorem child?_putChild_self (entries : List (String × FileEntry)) (name : String)
    (v : Option FileEntry) : (FileEntry.dir (putChild entries name v)).child? name = v := by
  cases v with
  | none => simp [child?, putChild]
  | some e =>
    simp only [putChild]
    split
    · rename_i there
      rw [child?_map fun x => by split <;> simp_all]
      obtain ⟨x, found⟩ :=
        Option.isSome_iff_exists.1 (List.find?_isSome.2 (List.any_eq_true.1 there))
      have here : x.1 = name := by simpa using List.find?_some found
      rw [found, Option.map_some, if_pos here]
    · rename_i absent
      have none : entries.find? (·.1 = name) = none :=
        List.find?_eq_none.2 fun x mem here => absent (List.any_eq_true.2 ⟨x, mem, here⟩)
      simp [child?, List.find?_append, none]

theorem child?_putChild_other (entries : List (String × FileEntry)) {name other : String}
    (apart : other ≠ name) (v : Option FileEntry) :
    (FileEntry.dir (putChild entries name v)).child? other = (FileEntry.dir entries).child? other := by
  have apart' : name ≠ other := apart.symm
  cases v with
  | none =>
    simp only [child?, putChild, List.find?_filter]
    congr 2
    funext x
    by_cases here : x.1 = other <;> simp [here, apart]
  | some e =>
    simp only [putChild]
    split
    · rw [child?_map fun x => by split <;> simp_all, child?]
      cases found : entries.find? (·.1 = other) with
      | none => rfl
      | some x =>
        have here : x.1 = other := by simpa using List.find?_some found
        rw [Option.map_some, Option.map_some, if_neg (here ▸ apart)]
    · simp [child?, List.find?_append, apart']

theorem child?_change (entries : List (String × FileEntry)) (name other : String)
    (f : FileEntry → FileEntry) :
    (FileEntry.dir (entries.map fun x => if x.1 = name then (x.1, f x.2) else x)).child? other =
      if other = name then ((FileEntry.dir entries).child? other).map f
      else (FileEntry.dir entries).child? other := by
  rw [child?_map fun x => by split <;> rfl, child?]
  cases found : entries.find? (·.1 = other) with
  | none => simp
  | some x =>
    have here : x.1 = other := by simpa using List.find?_some found
    subst here
    by_cases same : x.1 = name <;> simp [same]

variable {es : List (String × FileEntry)}

theorem child?_some {e x : FileEntry} (found : e.child? name = some x) :
    ∃ entries, e = .dir entries := by
  cases e with
  | dir entries => exact ⟨entries, rfl⟩
  | file _ _ => cases found
  | link _ => cases found

theorem set_cons (entries : List (String × FileEntry)) (m : String) (place : List String) (name : String)
    (v : Option FileEntry) : set v (m :: (place ++ [name])) (.dir entries) =
      .dir (entries.map fun x => if x.1 = m then (x.1, set v (place ++ [name]) x.2) else x) := by
  cases place <;> rfl

theorem at?_set_self (v : Option FileEntry) (there : top.at? place = some (.dir es)) :
    (set v (place ++ [name]) top).at? (place ++ [name]) = v := by
  induction place generalizing top with
  | nil =>
    cases there
    show ((FileEntry.dir (putChild es name v)).child? name).bind (·.at? []) = v
    rw [child?_putChild_self]
    cases v <;> rfl
  | cons m place ih =>
    obtain ⟨x, child, below⟩ := Option.bind_eq_some_iff.1 there
    obtain ⟨entries, rfl⟩ := child?_some child
    rw [List.cons_append, set_cons, at?, child?_change, if_pos rfl, child, Option.map_some,
      Option.bind_some, ih below]

/-- Nothing else changes, apart from what the directories on the way contain. -/
theorem at?_set_other (v : Option FileEntry) (there : top.at? place = some (.dir es))
    (apart : ¬ place ++ [name] <+: q) :
    ((set v (place ++ [name]) top).at? q).map face = (top.at? q).map face := by
  induction place generalizing top q with
  | nil =>
    cases there
    cases q with
    | nil => rfl
    | cons m q =>
      have other : m ≠ name := by
        rintro rfl
        exact apart (List.prefix_append [m] q)
      show Option.map face (((FileEntry.dir (putChild es name v)).child? m).bind (·.at? q)) = _
      rw [child?_putChild_other es other]
      rfl
  | cons m place ih =>
    obtain ⟨x, child, below⟩ := Option.bind_eq_some_iff.1 there
    obtain ⟨entries, rfl⟩ := child?_some child
    rw [List.cons_append, set_cons]
    cases q with
    | nil => rfl
    | cons k q =>
      rw [at?, at?, child?_change]
      -- The paths part at this directory, or further down.
      split
      · rename_i same
        subst same
        rw [child, Option.map_some, Option.bind_some, Option.bind_some]
        exact ih below fun inside => apart (by simpa using inside)
      · rfl

/-- There is a directory at a place. -/
def HasDir (top : FileEntry) (place : List String) : Prop := ∃ es, top.at? place = some (.dir es)

theorem HasDir.root (here : top.HasDir place) : top.HasDir [] := by
  obtain ⟨es, there⟩ := here
  cases place with
  | nil => exact ⟨es, there⟩
  | cons m rest =>
    obtain ⟨x, child, -⟩ := Option.bind_eq_some_iff.1 there
    obtain ⟨entries, rfl⟩ := child?_some child
    exact ⟨entries, rfl⟩

theorem hasDir_of_below {m : String} {below : List String} {x : FileEntry}
    (there : top.at? (place ++ m :: below) = some x) : top.HasDir place := by
  rw [at?_append] at there
  obtain ⟨y, own, rest⟩ := Option.bind_eq_some_iff.1 there
  obtain ⟨z, child, -⟩ := Option.bind_eq_some_iff.1 rest
  obtain ⟨entries, rfl⟩ := child?_some child
  exact ⟨entries, own⟩

theorem HasDir.dropLast (here : top.HasDir place) : top.HasDir place.dropLast := by
  rcases List.eq_nil_or_concat place with rfl | ⟨front, last, rfl⟩
  · exact here
  · rw [List.concat_eq_append] at here ⊢
    rw [List.dropLast_concat]
    obtain ⟨es, there⟩ := here
    exact hasDir_of_below there

theorem HasDir.linked (here : top.HasDir place) (target : String) :
    top.HasDir (if Path.isAbsolute target then [] else place) := by
  split
  · exact here.root
  · exact here

/-- Changing what is no directory does not make it one. -/
theorem hasDir_of_set {e : FileEntry} (solid : ∀ es, e ≠ .dir es)
    (here : (set (some e) place top).HasDir []) : top.HasDir [] := by
  cases top with
  | dir entries => exact ⟨entries, rfl⟩
  | file bytes n =>
    obtain ⟨es, there⟩ := here
    rcases place with _ | ⟨m, _ | ⟨m', place⟩⟩
    · exact absurd (Option.some.inj there) (solid es)
    · cases there
    · cases there
  | link target =>
    obtain ⟨es, there⟩ := here
    rcases place with _ | ⟨m, _ | ⟨m', place⟩⟩
    · exact absurd (Option.some.inj there) (solid es)
    · cases there
    · cases there

/-- What is seen of an entry from another tree: the entry, or a directory that may have changed. -/
theorem seen_dir (seen : (top.at? q).map face = some (FileEntry.dir es).face) : top.HasDir q := by
  obtain ⟨x, there, same⟩ := Option.map_eq_some_iff.1 seen
  cases x with
  | dir entries => exact ⟨entries, there⟩
  | file _ _ => cases same
  | link _ => cases same

theorem seen_file {bytes : List UInt8} {n : Int}
    (seen : (top.at? q).map face = some (FileEntry.file bytes n).face) :
    top.at? q = some (.file bytes n) := by
  obtain ⟨x, there, same⟩ := Option.map_eq_some_iff.1 seen
  cases x with
  | dir entries => cases same
  | file _ _ => exact there.trans (congrArg some same)
  | link _ => cases same

theorem seen_link {target : String} (seen : (top.at? q).map face = some (FileEntry.link target).face) :
    top.at? q = some (.link target) := by
  obtain ⟨x, there, same⟩ := Option.map_eq_some_iff.1 seen
  cases x with
  | dir entries => cases same
  | file _ _ => cases same
  | link _ => exact there.trans (congrArg some same)

theorem at?_set_known (v : Option FileEntry) (here : top.HasDir place)
    (leaf : ¬ top.HasDir (place ++ [name])) {y : FileEntry} (known : top.at? q = some y)
    (apart : q ≠ place ++ [name]) :
    ((set v (place ++ [name]) top).at? q).map face = some y.face := by
  obtain ⟨es, here⟩ := here
  rw [at?_set_other v here, known, Option.map_some]
  rintro ⟨below, rfl⟩
  cases below with
  | nil => exact apart (List.append_nil _)
  | cons m below => exact leaf (hasDir_of_below known)

end FileEntry

namespace FileTree

open FileEntry

variable {top : FileEntry} {followLast : Bool} {links : Nat} {place todo front q : List String}
  {name : String} {e : Option FileEntry}

/-- A name leads to an entry only in a directory. -/
theorem hasDir_of_walk {e : FileEntry} (dot : name ≠ ".") (dots : name ≠ "..")
    (done : walk top followLast links place (front ++ [name]) = .ok (q, some e)) : top.HasDir [] := by
  by_contra lone
  have absent (x : List String) (m : String) : top.at? (x ++ [m]) = none := by
    by_contra found
    obtain ⟨y, there⟩ := Option.ne_none_iff_exists'.1 found
    exact lone (hasDir_of_below there).root
  induction front generalizing place with
  | nil =>
    rw [List.nil_append, walk, if_neg dot, if_neg dots, absent] at done
    cases done
  | cons m front ih =>
    rw [List.cons_append, walk] at done
    split at done
    · exact ih done
    · split at done
      · exact ih done
      · rw [absent] at done
        simp at done

/-- The last name of a path that may be replaced is looked up in its directory. -/
theorem walk_last (here : top.HasDir place)
    (done : walk top false links place [name] = .ok (q, e)) (leaf : ∀ es, e ≠ some (.dir es)) :
    name ≠ "." ∧ name ≠ ".." ∧ q = place ++ [name] ∧ e = top.at? (place ++ [name]) := by
  have solid {x : List String} (there : top.HasDir x) (same : e = top.at? x) : False := by
    obtain ⟨es, own⟩ := there
    exact leaf es (same.trans own)
  -- Each of the other ways for a name to lead somewhere leads to a directory.
  rw [walk] at done
  split at done
  · rw [walk] at done
    cases done
    exact (solid here rfl).elim
  · rename_i dot
    split at done
    · rw [walk] at done
      cases done
      exact (solid here.dropLast rfl).elim
    · rename_i dots
      refine ⟨dot, dots, ?_⟩
      split at done
      · rename_i own
        cases done
        exact ⟨rfl, own.symm⟩
      · rename_i own
        rw [walk] at done
        cases done
        exact (solid ⟨_, own⟩ rfl).elim
      · rename_i own
        cases done
        exact ⟨rfl, own.symm⟩
      · rename_i own
        cases done
        exact ⟨rfl, own.symm⟩

theorem walk_solid {bytes : List UInt8} {n : Int} {place' : List String} {x : FileEntry}
    (dot : name ≠ ".") (dots : name ≠ "..")
    (led : walk top true links place [name] = .ok (q, some (.file bytes n)))
    (done : walk top false links place [name] = .ok (place', some x)) : ∀ es, x ≠ .dir es := by
  rintro es rfl
  rw [walk, if_neg dot, if_neg dots] at led done
  split at done
  · cases done
  · rename_i own
    rw [own] at led
    dsimp only at led
    rw [walk, own] at led
    cases led
  · cases done
  · cases done

/-- The names before the last one lead to a directory, whatever the last one is. -/
theorem walk_front (here : top.HasDir place) (split : todo = front ++ [name])
    (done : walk top followLast links place todo = .ok (q, e)) :
    ∃ links' dir, top.HasDir dir ∧ ∀ follow last,
      walk top follow links place (front ++ [last]) = walk top follow links' dir [last] := by
  -- No step before the last name depends on it, so each is done again with any other.
  fun_induction walk top followLast links place todo generalizing front with
  | case1 links place => simp at split
  | case2 links place rest ih =>
    cases front with
    | nil => exact ⟨links, place, here, fun _ _ => rfl⟩
    | cons m front =>
      obtain ⟨rfl, rfl⟩ := List.cons.inj split
      obtain ⟨links', dir, there, same⟩ := ih here rfl done
      refine ⟨links', dir, there, fun follow last => ?_⟩
      rw [List.cons_append, walk_dot, same]
  | case3 links place rest dot ih =>
    cases front with
    | nil => exact ⟨links, place, here, fun _ _ => rfl⟩
    | cons m front =>
      obtain ⟨rfl, rfl⟩ := List.cons.inj split
      obtain ⟨links', dir, there, same⟩ := ih here.dropLast rfl done
      refine ⟨links', dir, there, fun follow last => ?_⟩
      rw [List.cons_append, walk_up, same]
  | case6 links place name rest dot dots entries there ih =>
    cases front with
    | nil => exact ⟨links, place, here, fun _ _ => rfl⟩
    | cons m front =>
      obtain ⟨rfl, rfl⟩ := List.cons.inj split
      obtain ⟨links', dir, inside, same⟩ := ih ⟨entries, there⟩ rfl done
      refine ⟨links', dir, inside, fun follow last => ?_⟩
      rw [List.cons_append, walk_into dot dots there]
      exact same follow last
  | case11 place name rest dot dots target there further links ih =>
    cases front with
    | nil => exact ⟨links + 1, place, here, fun _ _ => rfl⟩
    | cons m front =>
      obtain ⟨rfl, rfl⟩ := List.cons.inj split
      obtain ⟨links', dir, inside, same⟩ :=
        ih (here.linked target) (List.append_assoc _ _ _).symm done
      refine ⟨links', dir, inside, fun follow last => ?_⟩
      rw [List.cons_append, walk_through dot dots there (by simp), ← List.append_assoc]
      exact same follow last
  | case4 links place name rest _ _ _ last =>
    obtain rfl := List.isEmpty_iff.1 last
    obtain rfl : front = [] := by simpa using congrArg List.length split
    exact ⟨links, place, here, fun _ _ => rfl⟩
  | case7 links place name rest _ _ _ _ _ last =>
    obtain rfl := List.isEmpty_iff.1 last
    obtain rfl : front = [] := by simpa using congrArg List.length split
    exact ⟨links, place, here, fun _ _ => rfl⟩
  | case9 links place name rest _ _ _ _ last =>
    obtain rfl := List.isEmpty_iff.1 (Bool.and_eq_true_iff.1 last).1
    obtain rfl : front = [] := by simpa using congrArg List.length split
    exact ⟨links, place, here, fun _ _ => rfl⟩
  | case5 => cases done
  | case8 => cases done
  | case10 => cases done

/-- A path that can be written leads to a file, or to a free name in a directory. -/
theorem walk_writable (here : top.HasDir place)
    (done : walk top true links place todo = .ok (q, e)) (leaf : ∀ es, e ≠ some (.dir es)) :
    (∃ dir last, q = dir ++ [last] ∧ top.HasDir dir) ∧
      ∀ y, top.at? q = some y → ∃ bytes n, y = .file bytes n := by
  fun_induction walk top true links place todo with
  | case1 links place =>
    cases done
    obtain ⟨es, there⟩ := here
    exact absurd there (leaf es)
  | case2 links place rest ih => exact ih here done
  | case3 links place rest dot ih => exact ih here.dropLast done
  | case4 links place name rest _ _ absent last =>
    cases done
    exact ⟨⟨place, name, rfl, here⟩, fun y there => by cases absent.symm.trans there⟩
  | case6 links place name rest _ _ entries there ih => exact ih ⟨entries, there⟩ done
  | case7 links place name rest _ _ bytes n there last =>
    cases done
    exact ⟨⟨place, name, rfl, here⟩, fun y own =>
      ⟨bytes, n, Option.some.inj (own.symm.trans there)⟩⟩
  | case9 links place name rest _ _ target there last => simp at last
  | case11 place name rest _ _ target there further links ih => exact ih (here.linked target) done
  | case5 => cases done
  | case8 => cases done
  | case10 => cases done

/-- A file that has just been written is found again by the same names. -/
theorem walk_written (bytes : List UInt8) (n : Int) (here : top.HasDir place)
    (done : walk top true links place todo = .ok (q, e)) (leaf : ∀ es, e ≠ some (.dir es)) :
    walk (FileEntry.set (some (.file bytes n)) q top) true links place todo =
      .ok (q, some (.file bytes n)) := by
  obtain ⟨⟨dir, last, rfl, inside⟩, files⟩ := walk_writable here done leaf
  have solid : ¬ top.HasDir (dir ++ [last]) := by
    rintro ⟨es, there⟩
    obtain ⟨_, _, same⟩ := files _ there
    cases same
  have own : (FileEntry.set (some (.file bytes n)) (dir ++ [last]) top).at? (dir ++ [last]) =
      some (.file bytes n) := by
    obtain ⟨es, there⟩ := inside
    exact at?_set_self _ there
  have others {x : List String} {y : FileEntry} := at?_set_known (q := x) (y := y)
    (some (.file bytes n)) inside solid
  generalize FileEntry.set (some (.file bytes n)) (dir ++ [last]) top = after at own others ⊢
  -- The directories and links on the way are not at the place of the file, so they are still there.
  fun_induction walk top true links place todo with
  | case1 links place =>
    cases done
    exact absurd here solid
  | case2 links place rest ih =>
    rw [walk_dot]
    exact ih here done
  | case3 links place rest dot ih =>
    rw [walk_up]
    exact ih here.dropLast done
  | case4 links place name rest dot dots _ none =>
    obtain rfl := List.isEmpty_iff.1 none
    obtain ⟨same, -⟩ := Prod.mk.inj (Except.ok.inj done)
    rw [walk_file dot dots (same ▸ own), same]
  | case6 links place name rest dot dots entries there ih =>
    obtain ⟨es, inside⟩ := seen_dir (others there fun same => solid ⟨entries, same ▸ there⟩)
    rw [walk_into dot dots inside]
    exact ih ⟨entries, there⟩ done
  | case7 links place name rest dot dots _ _ _ none =>
    obtain rfl := List.isEmpty_iff.1 none
    obtain ⟨same, -⟩ := Prod.mk.inj (Except.ok.inj done)
    rw [walk_file dot dots (same ▸ own), same]
  | case9 links place name rest _ _ target there last => simp at last
  | case11 place name rest dot dots target there further links ih =>
    have linked := seen_link (others there fun same => by
      obtain ⟨_, _, file⟩ := files _ (same ▸ there)
      cases file)
    rw [walk_through dot dots linked (by simp)]
    exact ih (here.linked target) done
  | case5 => cases done
  | case8 => cases done
  | case10 => cases done

/-- A file or a link has been moved within a directory, over another one or to a free name. -/
structure Moved (before after : FileEntry) (dir : List String) (source target : String)
    (e : FileEntry) : Prop where
  inside : before.HasDir dir
  moved : before.at? (dir ++ [source]) = some e
  solid : ∀ es, e ≠ .dir es
  place : ¬ before.HasDir (dir ++ [target])
  gone : after.at? (dir ++ [source]) = none
  there : after.at? (dir ++ [target]) = some e
  others : ∀ x y, before.at? x = some y → x ≠ dir ++ [source] → x ≠ dir ++ [target] →
    (after.at? x).map face = some y.face

theorem moved_set {before : FileEntry} {dir : List String} {source target : String} {e : FileEntry}
    (inside : before.HasDir dir) (moved : before.at? (dir ++ [source]) = some e)
    (solid : ∀ es, e ≠ .dir es) (place : ¬ before.HasDir (dir ++ [target])) (apart : source ≠ target) :
    Moved before (FileEntry.set (some e) (dir ++ [target])
      (FileEntry.set none (dir ++ [source]) before)) dir source target e := by
  have leaf : ¬ before.HasDir (dir ++ [source]) := by
    rintro ⟨es, there⟩
    exact solid es (Option.some.inj (moved.symm.trans there))
  have beside {a b : String} (other : a ≠ b) : ¬ dir ++ [a] <+: dir ++ [b] := by
    rw [List.prefix_append_right_inj, List.cons_prefix_cons]
    exact fun both => other both.1
  obtain ⟨es, here⟩ := inside
  have taken (x : List String) (y : FileEntry) (known : before.at? x = some y)
      (other : x ≠ dir ++ [source]) := at?_set_known none ⟨es, here⟩ leaf known other
  have gone : (FileEntry.set none (dir ++ [source]) before).at? (dir ++ [source]) = none :=
    at?_set_self none here
  have place' := at?_set_other none here (beside apart)
  generalize FileEntry.set none (dir ++ [source]) before = between at taken gone place' ⊢
  obtain ⟨es', here'⟩ := seen_dir (taken dir _ here (by simp))
  have free : ¬ between.HasDir (dir ++ [target]) := by
    rintro ⟨es, there⟩
    rw [there] at place'
    exact place (seen_dir place'.symm)
  refine ⟨⟨es, here⟩, moved, solid, place, ?_, at?_set_self _ here', fun x y known other other' => ?_⟩
  · have same := at?_set_other (some e) here' (beside apart.symm)
    rw [gone] at same
    exact Option.map_eq_none_iff.1 same
  · obtain ⟨y', there, same⟩ := Option.map_eq_some_iff.1 (taken x y known other)
    rw [at?_set_known (some e) ⟨es', here'⟩ free there other', same]

namespace Moved

variable {before after : FileEntry} {dir : List String} {source target : String} {e : FileEntry}
  {bytes b : List UInt8} {n m : Int} {limit : Nat} {rest : List String}

/-- What the moved entry leads to: nothing can be reached through it but the one file. -/
def Leads (after : FileEntry) (place : List String) (todo : List String) (bytes : List UInt8)
    (links : Nat) : Prop :=
  ∀ rest q b m, walk after true links place (todo ++ rest) = .ok (q, some (.file b m)) →
    rest = [] ∧ b = bytes

theorem dir_seen {x : List String} (moved : Moved before after dir source target e)
    (here : before.HasDir x) : after.HasDir x := by
  obtain ⟨es, there⟩ := here
  refine seen_dir (moved.others x _ there ?_ ?_)
  · rintro rfl
    exact moved.solid es (Option.some.inj (moved.moved.symm.trans there))
  · rintro rfl
    exact moved.place ⟨es, there⟩

/-- A path cannot go through the old place any more, and if it goes through the new one, that is
its end. -/
theorem apart (moved : Moved before after dir source target e) {place more : List String}
    (leads : Leads after dir [target] bytes links) (dot : name ≠ ".") (dots : name ≠ "..")
    (done : walk after true links place (name :: (more ++ rest)) = .ok (q, some (.file b m))) :
    (rest = [] ∧ b = bytes) ∨
      (place ++ [name] ≠ dir ++ [source] ∧ place ++ [name] ≠ dir ++ [target]) := by
  by_cases old : place ++ [name] = dir ++ [source]
  · rw [walk, if_neg dot, if_neg dots, old, moved.gone] at done
    dsimp only at done
    split at done <;> cases done
  by_cases new : place ++ [name] = dir ++ [target]
  · obtain ⟨rfl, one⟩ := List.append_inj' new rfl
    obtain rfl := List.singleton_inj.1 one
    obtain ⟨none, same⟩ := leads _ q b m done
    exact .inl ⟨(List.append_eq_nil_iff.1 none).2, same⟩
  · exact .inr ⟨old, new⟩

/-- Names that led to the file, or to the place that the move has taken, lead to the file after the
move, if they lead to a file. -/
theorem follow (moved : Moved before after dir source target e)
    (leads : ∀ l ≤ limit, Leads after dir [target] bytes l) {r : Option FileEntry}
    (here : before.HasDir place) (done : walk before followLast links place todo = .ok (q, r))
    (leaf : ∀ es, r ≠ some (.dir es))
    (ends : q = dir ++ [target] ∨ ∃ n, r = some (.file bytes n)) :
    ∀ l ≤ limit, Leads after place todo bytes l := by
  -- Both trees are walked in step up to the new place; only how many links are left may differ.
  fun_induction walk before followLast links place todo with
  | case1 links place =>
    cases done
    obtain ⟨es, there⟩ := here
    exact absurd there (leaf es)
  | case2 links place more ih =>
    intro l bound rest q b m reached
    rw [List.cons_append, walk_dot] at reached
    exact ih here done l bound rest q b m reached
  | case3 links place more dot ih =>
    intro l bound rest q b m reached
    rw [List.cons_append, walk_up] at reached
    exact ih here.dropLast done l bound rest q b m reached
  | case4 links place name more dot dots absent last =>
    intro l bound rest q b m reached
    cases done
    obtain found | ⟨-, other⟩ := moved.apart (leads l bound) dot dots reached
    · exact found
    · obtain same | ⟨_, same⟩ := ends
      · exact absurd same other
      · cases same
  | case6 links place name more dot dots entries there ih =>
    intro l bound rest q b m reached
    obtain ⟨es, inside⟩ := moved.dir_seen ⟨entries, there⟩
    rw [List.cons_append, walk_into dot dots inside] at reached
    exact ih ⟨entries, there⟩ done l bound rest q b m reached
  | case7 links place name more dot dots content time there last =>
    intro l bound rest q b m reached
    cases done
    obtain rfl := List.isEmpty_iff.1 last
    obtain found | ⟨old, new⟩ := moved.apart (leads l bound) dot dots reached
    · exact found
    · obtain same | ⟨_, same⟩ := ends
      · exact absurd same new
      · obtain ⟨rfl, -⟩ := FileEntry.file.inj (Option.some.inj same)
        have kept := seen_file (moved.others _ _ there old new)
        rw [List.cons_append, walk, if_neg dot, if_neg dots, kept] at reached
        cases rest with
        | nil =>
          cases reached
          exact ⟨rfl, rfl⟩
        | cons _ _ => cases reached
  | case9 links place name more dot dots target' there last =>
    intro l bound rest q b m reached
    cases done
    obtain found | ⟨-, new⟩ := moved.apart (leads l bound) dot dots reached
    · exact found
    · obtain same | ⟨_, same⟩ := ends
      · exact absurd same new
      · cases same
  | case11 place name more dot dots target' there further links ih =>
    intro l bound rest q b m reached
    obtain found | ⟨old, new⟩ := moved.apart (leads l bound) dot dots reached
    · exact found
    · have kept := seen_link (moved.others _ _ there old new)
      rw [List.cons_append, walk, if_neg dot, if_neg dots, kept] at reached
      simp only [Bool.not_true, Bool.and_false, Bool.false_eq_true, if_false] at reached
      cases l with
      | zero => cases reached
      | succ l =>
        rw [← List.append_assoc] at reached
        exact ih (here.linked target') done l (Nat.le_of_succ_le bound) rest q b m reached
  | case5 => cases done
  | case8 => cases done
  | case10 => cases done

/-- The new place leads to the file that the old one led to. A link may be passed several times on the
way, but each time with fewer links left. -/
theorem leads (moved : Moved before after dir source target e) (plain : target ≠ "." ∧ target ≠ "..")
    (plain' : source ≠ "." ∧ source ≠ "..")
    (led : walk before true links dir [source] = .ok (q, some (.file bytes n))) (l : Nat) :
    Leads after dir [target] bytes l := by
  induction l using Nat.strong_induction_on with
  | _ l ih =>
    intro rest q b m reached
    rw [List.singleton_append, walk, if_neg plain.1, if_neg plain.2, moved.there] at reached
    rw [walk, if_neg plain'.1, if_neg plain'.2, moved.moved] at led
    cases e with
    | dir entries => exact absurd rfl (moved.solid entries)
    | file content time =>
      cases led
      cases rest with
      | nil =>
        cases reached
        exact ⟨rfl, rfl⟩
      | cons _ _ => cases reached
    | link target' =>
      simp only [Bool.not_true, Bool.and_false, Bool.false_eq_true, if_false] at reached led
      cases links with
      | zero => cases led
      | succ links =>
        cases l with
        | zero => cases reached
        | succ l =>
          rw [List.append_nil] at led
          exact moved.follow (fun l' bound => ih l' (Nat.lt_succ_of_le bound))
            (moved.inside.linked target') led (fun es same => by cases same) (.inr ⟨n, rfl⟩) l
            (Nat.le_refl l) rest q b m reached

end Moved

/-! ### Files -/

variable {t t' : FileTree} {path source target : String} {bytes b : List UInt8} {n : Int}

theorem read_ok_iff : t.read path = .ok b ↔ ∃ q n, t.locate path true = .ok (q, some (.file b n)) := by
  unfold read entry?
  rcases t.locate path true with fault | ⟨q, _ | _ | _ | _⟩ <;> simp [bind, Except.bind]

theorem write_ok_iff : t.write path bytes n = .ok t' ↔ ∃ q e, t.locate path true = .ok (q, e) ∧
    (∀ es, e ≠ some (.dir es)) ∧ t' = t.put q (some (.file bytes n)) := by
  unfold write
  rcases t.locate path true with fault | ⟨q, _ | _ | _ | _⟩ <;> simp [bind, Except.bind, eq_comm]

theorem rename_ok_iff : t.rename source target = .ok t' ↔ ∃ q e q' e',
    t.locate source false = .ok (q, some e) ∧ t.locate target false = .ok (q', e') ∧
      (∀ es, e' ≠ some (.dir es)) ∧ t' = (t.put q none).put q' (some e) := by
  unfold rename
  rcases t.locate source false with fault | ⟨q, _ | e⟩
  · simp [bind, Except.bind]
  · simp [bind, Except.bind]
  · rcases t.locate target false with fault' | ⟨q', _ | _ | _ | _⟩ <;>
      simp [bind, Except.bind, eq_comm]

theorem names_pieces {front : List (List Char)} {last : List Char}
    (pieces : Text.splitOn '/' path.toList = front ++ [last]) :
    names path = (front.map String.ofList).filter (· ≠ "") ++
      [if last = [] then "." else String.ofList last] := by
  by_cases none : last = []
  · simp [names, pieces, none]
  · simp [names, pieces, none]

/-- The draft of a file stands beside it, under a name of its own. -/
theorem names_draft (cwd path : String) : ∃ front draft name,
    names (Path.join cwd (path ++ ".tmp")) = front ++ [draft] ∧
      names (Path.join cwd path) = front ++ [name] ∧
      draft ≠ "." ∧ draft ≠ ".." ∧ draft ≠ name := by
  have joined : Path.join cwd (path ++ ".tmp") = Path.join cwd path ++ ".tmp" := by
    have same : Path.isAbsolute (path ++ ".tmp") = Path.isAbsolute path := by
      unfold Path.isAbsolute
      rw [String.toList_append]
      cases path.toList <;> rfl
    simp only [Path.join, same]
    split_ifs <;> simp [String.append_assoc]
  obtain ⟨front, last, pieces, longer⟩ :=
    Text.splitOn_append (show '/' ∉ ".tmp".toList by decide) (Path.join cwd path).toList
  rw [← String.toList_append, ← joined] at longer
  have long (s : String) (short : s.toList.length < 3) : String.ofList (last ++ ".tmp".toList) ≠ s := by
    rintro rfl
    simp at short
    omega
  refine ⟨_, _, _, names_pieces longer, names_pieces pieces, ?_⟩
  rw [if_neg (by simp)]
  refine ⟨long _ (by decide), long _ (by decide), ?_⟩
  split
  · exact long _ (by decide)
  · intro same
    simpa using congrArg List.length (String.ofList_injective same)

/-- What is read from a file that was saved is what was written, whichever links there are. -/
theorem read_replaced {before : FileTree} (wrote : before.write (path ++ ".tmp") bytes n = .ok t)
    (moved : t.rename (path ++ ".tmp") path = .ok t') (read : t'.read path = .ok b) : b = bytes := by
  obtain ⟨W, r, written, leaf, rfl⟩ := write_ok_iff.1 wrote
  obtain ⟨q, e, q', e', source, target, leaf', rfl⟩ := rename_ok_iff.1 moved
  obtain ⟨Q, m, found⟩ := read_ok_iff.1 read
  obtain ⟨front, draft, name, drafted, named, dot, dots, apart⟩ := names_draft before.cwd path
  simp only [locate, absolute, put, drafted, named] at written source target found
  have root := hasDir_of_walk dot dots source
  have written := walk_written bytes n
    (hasDir_of_set (fun es same => by cases same) root) written leaf
  generalize FileEntry.set _ W before.top = top at source target found written root
  obtain ⟨links, dir, inside, last⟩ := walk_front root rfl target
  have target' := target
  rw [last] at source target' written
  have solid := walk_solid dot dots written source
  obtain ⟨-, -, rfl, own⟩ := walk_last inside source (fun es same => solid es (Option.some.inj same))
  obtain ⟨dot', dots', rfl, there⟩ := walk_last inside target' leaf'
  have free : ¬ top.HasDir (dir ++ [name]) := by
    rintro ⟨es, here⟩
    exact leaf' es (there.trans here)
  have moved := moved_set inside own.symm solid free apart
  exact (moved.follow (fun l _ => moved.leads ⟨dot', dots'⟩ ⟨dot, dots⟩ written l) root target leaf'
    (.inl rfl) maxLinks (Nat.le_refl _) [] Q b m (by rwa [List.append_nil])).2

end FileTree

end SourceSlices
