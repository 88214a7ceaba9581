import SourceSlices.Grammars
import SourceSlices.Proofs.SourceRuns
import SourceSlices.Proofs.StagingSuccess

/-!
Sources whose files have the same paths. The store knows a file only by its path below the root of
its source. A run therefore takes over the record of a file of another source exactly if it stages a
file under the same path; every other file keeps its record, its symbols and its slices.
-/
namespace SourceSlices

/-! ### Sources with one file -/

namespace FileEntry

theorem at?_append (e : FileEntry) (a b : List String) : e.at? (a ++ b) = (e.at? a).bind (·.at? b) := by
  induction a generalizing e with
  | nil => rfl
  | cons name rest ih =>
    simp only [List.cons_append, at?]
    cases e.child? name with
    | none => rfl
    | some x => exact ih x

end FileEntry

namespace FileTree

section Walk

variable {top e : FileEntry} {followLast : Bool} {links : Nat} {place todo : List String} {name : String}

theorem walk_dot : walk top followLast links place ("." :: todo) = walk top followLast links place todo := by
  rw [walk, if_pos rfl]

theorem walk_up :
    walk top followLast links place (".." :: todo) = walk top followLast links place.dropLast todo := by
  rw [walk, if_neg (by decide), if_pos rfl]

theorem walk_into {entries : List (String × FileEntry)} (dot : name ≠ ".") (dots : name ≠ "..")
    (there : top.at? (place ++ [name]) = some (.dir entries)) :
    walk top followLast links place (name :: todo) = walk top followLast links (place ++ [name]) todo := by
  rw [walk, if_neg dot, if_neg dots, there]

theorem walk_free (dot : name ≠ ".") (dots : name ≠ "..") (absent : top.at? (place ++ [name]) = none) :
    walk top followLast links place [name] = .ok (place ++ [name], none) := by
  rw [walk, if_neg dot, if_neg dots, absent]
  rfl

theorem walk_file {bytes : List UInt8} {n : Int} (dot : name ≠ ".") (dots : name ≠ "..")
    (there : top.at? (place ++ [name]) = some (.file bytes n)) :
    walk top followLast links place [name] = .ok (place ++ [name], some (.file bytes n)) := by
  rw [walk, if_neg dot, if_neg dots, there]
  rfl

theorem walk_through {target : String} (dot : name ≠ ".") (dots : name ≠ "..")
    (there : top.at? (place ++ [name]) = some (.link target))
    (further : (todo.isEmpty && !followLast) = false) :
    walk top followLast (links + 1) place (name :: todo) =
      walk top followLast links (if Path.isAbsolute target then [] else place) (names target ++ todo) := by
  rw [walk, if_neg dot, if_neg dots, there]
  simp only [further, Bool.false_eq_true, if_false]

/-- Names that lead to an entry without links are followed to it. -/
theorem walk_direct (place : List String)
    (there : top.at? (place ++ todo) = some e) (solid : ∀ target, e ≠ .link target)
    (plain : ∀ name ∈ todo, name ≠ "." ∧ name ≠ "..") :
    walk top followLast links place todo = .ok (place ++ todo, some e) := by
  induction todo generalizing place with
  | nil =>
    rw [List.append_nil] at there ⊢
    rw [walk, there]
  | cons name rest ih =>
    obtain ⟨dot, dots⟩ := plain name List.mem_cons_self
    have split : place ++ name :: rest = (place ++ [name]) ++ rest := by simp
    rw [split, FileEntry.at?_append] at there
    obtain ⟨x, here, below⟩ := Option.bind_eq_some_iff.1 there
    have further : top.at? ((place ++ [name]) ++ rest) = some e := by
      rw [FileEntry.at?_append]
      exact there
    rw [walk, if_neg dot, if_neg dots, here, split]
    -- Only a directory has entries below it, so files and links can only stand at the end.
    cases x with
    | dir entries => exact ih (place ++ [name]) further fun n mem => plain n (List.mem_cons_of_mem _ mem)
    | file bytes modified =>
      cases rest with
      | nil =>
        cases below
        simp
      | cons n more => cases below
    | link target =>
      cases rest with
      | nil =>
        cases below
        exact absurd rfl (solid target)
      | cons n more => cases below

end Walk

theorem locate_direct {t : FileTree} {path : String} {place : List String} {e : FileEntry}
    (followLast : Bool) (named : names (t.absolute path) = place) (there : t.top.at? place = some e)
    (solid : ∀ target, e ≠ .link target) (plain : ∀ name ∈ place, name ≠ "." ∧ name ≠ "..") :
    t.locate path followLast = .ok (place, some e) := by
  rw [locate, named]
  exact walk_direct [] there solid plain

theorem read_direct {t : FileTree} {path : String} (place : List String) {bytes : List UInt8} {n : Int}
    (named : names (t.absolute path) = place) (there : t.top.at? place = some (.file bytes n))
    (plain : ∀ name ∈ place, name ≠ "." ∧ name ≠ "..") : t.read path = .ok bytes := by
  have located := locate_direct true named there (fun _ same => by cases same) plain
  simp [read, entry?, located, bind, Except.bind]

theorem locate_new {t : FileTree} {path name : String} {followLast : Bool}
    (named : names (t.absolute path) = [name]) (absent : t.top.at? [name] = none)
    (plain : name ≠ "." ∧ name ≠ "..") : t.locate path followLast = .ok ([name], none) := by
  rw [locate, named]
  exact walk_free plain.1 plain.2 absent

end FileTree

namespace StagedBatch

open Store

/-- A file that was read without symbols and chunks is written if its batch is there, and nothing is
counted for it. -/
theorem add_finishes {tree : FileTree} {now : Instant} {batch : String} {g : Progress}
    (known : g.store.hasBatch batch = true) (e : PlanEntry) (file : HandlerFile) :
    ∃ versions store fileId, g.add tree now batch (e, { file }) =
      Progress.finish { g with versions } e store { fileId } := by
  unfold Progress.add
  simp only [List.isEmpty_nil, Bool.not_true, Bool.false_eq_true, if_false]
  split
  · rename_i done
    obtain ⟨_, _, _, _, _, _, _, grouped, -, symbols, -, chunks⟩ := Staging.stage_ok_iff.1 done
    cases grouped
    cases symbols
    cases chunks
    exact ⟨_, _, _, rfl⟩
  · rename_i failed
    generalize request : StageRequest.mk _ _ _ _ _ _ _ = q at failed
    have own : q.batchId = batch := request ▸ rfl
    have result : q.result = { file } := request ▸ rfl
    obtain ⟨t, o, done⟩ := Staging.stage_succeeds (q := q) now (own ▸ known) (by rw [result])
      (fun g mem => by rw [result] at mem; cases mem) (fun c mem => by rw [result] at mem; cases mem)
    cases done.symm.trans failed

theorem add_empty {tree : FileTree} {now : Instant} {batch : String} {g : Progress}
    (known : g.store.hasBatch batch = true) (e : PlanEntry) (file : HandlerFile) :
    (g.add tree now batch (e, { file })).entries = g.entries ++ [e] := by
  obtain ⟨versions, store, fileId, added⟩ := add_finishes known e file
  rw [added]
  simp only [Progress.entries, Progress.finish, List.map_append, List.map_cons, List.map_nil]

end StagedBatch

namespace Runner

open Store StagedBatch

variable {r : Runner} {s : Store} {p : Pass}

theorem planFile_readable {r : Runner} {t : FileTree} {f : FoundFile} {bytes : List UInt8}
    {selection : Selection} (content : t.read f.path = .ok bytes)
    (resolved : r.registry.resolve f.path none (shebangOf bytes) = .ok selection) (p : RunPlan) :
    (r.planFile t p f).root = p.root ∧ (r.planFile t p f).entries = p.entries ++
      [⟨f.path, f.relative, selection,
        Hashing.hashBytes bytes selection.version [displayPath f.relative], shebangOf bytes⟩] := by
  simp only [planFile, content, Except.toOption, Option.bind_some, resolved, addEntry, addFallback]
  split <;> exact ⟨rfl, rfl⟩

/-- A source with one file that can be read is planned as that file. -/
theorem plan_lone {r : Runner} {t : FileTree} {source root : String} {w : Traversal} {f : FoundFile}
    {bytes : List UInt8} {selection : Selection} (enabled : r.config.enabled = true)
    (rooted : r.sourceRoot source = .ok root)
    (made : Traversal.make t root r.config.gitignoreBehavior r.config.workspaceIgnorePatterns
      r.config.followSymlinks = .ok w)
    (found : w.files t [] = [f]) (content : t.read f.path = .ok bytes)
    (resolved : r.registry.resolve f.path none (shebangOf bytes) = .ok selection) :
    ∃ plan, r.plan t source [] = .ok plan ∧ plan.root = FileTree.pathText w.root ∧
      plan.entries = [⟨f.path, f.relative, selection,
        Hashing.hashBytes bytes selection.version [displayPath f.relative], shebangOf bytes⟩] := by
  obtain ⟨root, entries⟩ := planFile_readable content resolved
    { source, root := FileTree.pathText w.root, warnings := r.degradedWarnings
      handlerVersions := r.registry.versions }
  simp only [plan, enabled, rooted, made, found, bind, Except.bind, Bool.not_true, Bool.false_eq_true,
    if_false, List.foldl_cons, List.foldl_nil]
  exact ⟨_, rfl, root, entries⟩

theorem readSource_text (reading : Reading) (path : String) :
    readSource .text reading path = Plain.read reading path := by
  unfold readSource
  cases reading.config.maxDelegationDepth - reading.depth + 1 <;> rfl

theorem readEntry_empty {t : FileTree} (root : String) {e : PlanEntry}
    (handled : r.registry.instantiate e.selection.name = .ok .text)
    (content : t.read e.path = .ok []) :
    ∃ file : HandlerFile, file.path = (Path.strip? e.path root).getD e.path ∧
      r.readEntry t root e = { file } := by
  have text : Text.decodeUtf8? [] = some "" := rfl
  have chars : "".toList = [] := rfl
  simp only [readEntry, handled, readSource_text, Plain.read, Reading.load, content, text, chars]
  exact ⟨_, rfl, rfl⟩

theorem stages_lone {plan : RunPlan} {e : PlanEntry} {file : HandlerFile}
    (planned : r.plan p.tree p.source p.scope = .ok plan) (entries : plan.entries = [e])
    (read : r.readEntry p.tree plan.root e = { file }) (key : Path.key file.path = Path.key e.relative)
    {path : String} :
    r.Stages s p path ↔ displayPath file.path = path := by
  have results : r.readPlan p.tree plan = [(e, { file })] := by
    rw [readPlan, entries, List.map_singleton, read]
  have accepted : complaint? (timed plan) [] [(e, { file })] = none := by
    simp [complaint?, timed, entries, key]
  have written : r.writtenEntries s p = [e] := by
    simp only [writtenEntries, planned, results, stage, List.isEmpty_cons, Bool.false_eq_true, if_false,
      accepted]
    exact add_empty (hasBatch_ensureBatch s _) e file
  simp only [Stages, StagedAmong, resultsOf, planned, results, written, List.mem_singleton, exists_eq_left,
    true_and, pathOf]

/-- Three roots with one empty file each; two of the files have the same name. -/
def threeRoots : FileTree where
  top := .dir [("a", .dir [("notes.txt", .file [] 0)]), ("b", .dir [("notes.txt", .file [] 0)]),
    ("c", .dir [("other.txt", .file [] 0)])]

def rootFiles : List (String × String) := [("a", "notes.txt"), ("b", "notes.txt"), ("c", "other.txt")]

def threeSources : Config where
  sources := .ofList [("a", "/a"), ("b", "/b"), ("c", "/c")]
  gitignoreBehavior := .workspace
  workspaceIgnorePatterns := []

def overThree : Runner where
  config := threeSources
  registry := { descriptors := Descriptor.defaults, settings := threeSources.handlers }
  encoder := .heuristic
  readers := grammars
  manifestPath := "/manifest.json"

/-- The call that runs over one of the sources and makes the batch. -/
def passOver (source batch : String) : Pass where
  tree := threeRoots
  now := .epoch
  fresh := batch
  source := source

theorem at_root {x : String × String} (mem : x ∈ rootFiles) :
    threeRoots.top.at? [x.1] = some (.dir [(x.2, .file [] 0)]) ∧
      threeRoots.top.at? [x.1, x.2] = some (.file [] 0) := by
  simp only [rootFiles, List.mem_cons, List.not_mem_nil, or_false] at mem
  obtain rfl | rfl | rfl := mem <;> exact ⟨rfl, rfl⟩

theorem locate_root {x : String × String} (mem : x ∈ rootFiles) : threeRoots.locate ("/" ++ x.1) true =
    .ok ([x.1], some (.dir [(x.2, .file [] 0)])) := by
  have named : ∀ y ∈ rootFiles, FileTree.names (threeRoots.absolute ("/" ++ y.1)) = [y.1] := by
    decide +kernel
  have plain : ∀ y ∈ rootFiles, ∀ name ∈ [y.1], name ≠ "." ∧ name ≠ ".." := by decide +kernel
  exact FileTree.locate_direct true (named x mem) (at_root mem).1 (fun _ same => by cases same)
    (plain x mem)

theorem read_root {x : String × String} (mem : x ∈ rootFiles) :
    threeRoots.read ("/" ++ x.1 ++ "/" ++ x.2) = .ok [] := by
  have named : ∀ y ∈ rootFiles,
      FileTree.names (threeRoots.absolute ("/" ++ y.1 ++ "/" ++ y.2)) = [y.1, y.2] := by
    decide +kernel
  have plain : ∀ y ∈ rootFiles, ∀ name ∈ [y.1, y.2], name ≠ "." ∧ name ≠ ".." := by decide +kernel
  exact FileTree.read_direct _ (named x mem) (at_root mem).2 (plain x mem)

/-- One text file is found below each of the roots. -/
theorem overThree_finds {x : String × String} (mem : x ∈ rootFiles) :
    overThree.sourceRoot x.1 = .ok ("/" ++ x.1) ∧
      Traversal.make threeRoots ("/" ++ x.1) .workspace [] false =
        .ok ⟨[x.1], .workspace, [], false⟩ ∧
      Traversal.files ⟨[x.1], .workspace, [], false⟩ threeRoots [] =
        [⟨"/" ++ x.1 ++ "/" ++ x.2, x.2⟩] ∧
      overThree.registry.resolve ("/" ++ x.1 ++ "/" ++ x.2) none (shebangOf []) =
        .ok ⟨"text", "1.0.0", "extension:txt", false⟩ := by
  have rooted : ∀ y ∈ rootFiles, threeSources.sources.find? y.1 = some ("/" ++ y.1) := by
    decide +kernel
  have found : ∀ y ∈ rootFiles, Traversal.files ⟨[y.1], .workspace, [], false⟩ threeRoots [] =
      [⟨"/" ++ y.1 ++ "/" ++ y.2, y.2⟩] := by
    decide +kernel
  have resolved : ∀ y ∈ rootFiles,
      overThree.registry.resolve ("/" ++ y.1 ++ "/" ++ y.2) none (shebangOf []) =
        .ok ⟨"text", "1.0.0", "extension:txt", false⟩ := by
    decide +kernel
  refine ⟨?_, ?_, found x mem, resolved x mem⟩
  · simp only [sourceRoot, overThree, rooted x mem]
  · simp [Traversal.make, FileTree.isDir, FileTree.place, FileTree.entry?, locate_root mem,
      Except.mapError, bind, Except.bind, Traversal.usesPatterns, pure, Except.pure, FileEntry.isDir,
      Except.toOption]

/-- A call over one of the roots stages the file of the root and nothing else. -/
theorem overThree_stages {x : String × String} (mem : x ∈ rootFiles) (batch : String)
    {path : String} :
    overThree.Stages s (passOver x.1 batch) path ↔ x.2 = path := by
  have relative : ∀ y ∈ rootFiles,
      Path.strip? ("/" ++ y.1 ++ "/" ++ y.2) (FileTree.pathText [y.1]) = some y.2 ∧
        displayPath y.2 = y.2 := by
    decide +kernel
  obtain ⟨root, made, found, resolved⟩ := overThree_finds mem
  obtain ⟨plan, planned, below, entries⟩ := plan_lone (r := overThree) rfl root made found
    (read_root mem) resolved
  obtain ⟨e, only, path, name, handler⟩ : ∃ e, plan.entries = [e] ∧
      e.path = "/" ++ x.1 ++ "/" ++ x.2 ∧ e.relative = x.2 ∧ e.selection.name = "text" :=
    ⟨_, entries, rfl, rfl, rfl⟩
  obtain ⟨file, there, read⟩ := readEntry_empty (r := overThree) (t := threeRoots)
    plan.root (e := e) (by rw [handler]; rfl) (by rw [path]; exact read_root mem)
  obtain ⟨stripped, shown⟩ := relative x mem
  rw [path, below, stripped, Option.getD_some] at there
  rw [stages_lone (p := passOver x.1 batch) planned only read (by rw [there, name]), there, shown]

theorem notes_known :
    overThree.Stages .empty (passOver "a" "b1") "notes.txt" ∧
      ∃ id, (overThree.storeAfter [passOver "a" "b1"]).fileId? "notes.txt" = some id := by
  have stages : overThree.Stages .empty (passOver "a" "b1") "notes.txt" :=
    (overThree_stages (x := ("a", "notes.txt")) (by decide) "b1").2 rfl
  obtain ⟨row, found, -⟩ := next_recordedBy regular_empty stages
  exact ⟨stages, row.id, congrArg (Option.map FileRow.id) found⟩

/-- In a history of calls with a batch each, over any sources, the record of a file is kept exactly by
the calls that do not stage its path; such a call also keeps the symbols of the file and what every
batch shows of it. A call that does stage the path takes the file for the one that is known: it leaves
the number, the symbols that it does not name, and in the view of every other batch the slices that
this batch wrote itself. -/
theorem record_kept_iff_not_staged (r : Runner) (before : List Pass) (p : Pass)
    (distinct : ((before ++ [p]).map Pass.batchId).Nodup) {path : String} {id : Int}
    (known : (r.storeAfter before).fileId? path = some id) :
    let s := r.storeAfter before
    let t := r.storeAfter (before ++ [p])
    (t.file? path = s.file? path ↔ ¬ r.Stages s p path) ∧
    (¬ r.Stages s p path → t.symbolsOf id = s.symbolsOf id ∧
      ∀ batch, t.fileSlices batch id = s.fileSlices batch id) ∧
    t.fileId? path = some id ∧
    (∀ row ∈ s.symbolsOf id, ¬ r.Names s p path row.path → row ∈ t.symbolsOf id) ∧
    ∀ batch, batch ≠ p.batchId → ∀ row ∈ s.fileSlices batch id, row.batchId = batch →
      ∃ row' ∈ t.fileSlices batch id, row'.content = row.content := by
  obtain ⟨regular, owners⟩ := storeAfter_spec r before
  intro s t
  have next : t = r.next s p := storeAfter_snoc r before p
  have leaves : Leaves p.batchId (r.Stages s p) (r.Names s p) s t := next ▸ next_leaves regular
  refine ⟨⟨fun same stages => ?_, fun apart => (leaves.apart path apart).record⟩, fun apart => ?_,
    leaves.numbers path id known, leaves.unnamed path id known,
    fun batch away row shown own => leaves.spares.shown away shown own⟩
  · obtain ⟨row, found, own⟩ := next_recordedBy regular stages
    have old : p.batchId ∈ before.map Pass.batchId :=
      owners p.batchId path ⟨row, same ▸ next ▸ found, own⟩
    rw [List.map_append, List.nodup_append] at distinct
    exact distinct.2.2 _ old _ List.mem_cons_self rfl
  · have rows := (leaves.apart path apart).rows id known
    exact ⟨rows.symbols, rows.fileSlices regular.sound leaves.regular.sound⟩

/-- The file of the first root outlives a call over the third one, whose file has another name. -/
theorem notes_outlive_other_root : ∃ id,
    (([passOver "a" "b1"] ++ [passOver "c" "b2"]).map Pass.batchId).Nodup ∧
    (overThree.storeAfter [passOver "a" "b1"]).fileId? "notes.txt" = some id ∧
    (overThree.storeAfter ([passOver "a" "b1"] ++ [passOver "c" "b2"])).file? "notes.txt" =
      (overThree.storeAfter [passOver "a" "b1"]).file? "notes.txt" ∧
    (overThree.storeAfter ([passOver "a" "b1"] ++ [passOver "c" "b2"])).symbolsOf id =
      (overThree.storeAfter [passOver "a" "b1"]).symbolsOf id ∧
    (overThree.storeAfter ([passOver "a" "b1"] ++ [passOver "c" "b2"])).fileSlices "b1" id =
      (overThree.storeAfter [passOver "a" "b1"]).fileSlices "b1" id := by
  obtain ⟨-, id, known⟩ := notes_known
  have sound := (storeAfter_spec overThree [passOver "a" "b1"]).1.sound
  have apart : ¬ overThree.Stages (overThree.storeAfter [passOver "a" "b1"]) (passOver "c" "b2")
      "notes.txt" := by
    rw [overThree_stages (x := ("c", "other.txt")) (by decide) "b2"]
    decide
  have distinct : (([passOver "a" "b1"] ++ [passOver "c" "b2"]).map Pass.batchId).Nodup := by decide
  obtain ⟨record, rows, -⟩ := record_kept_iff_not_staged overThree [passOver "a" "b1"]
    (passOver "c" "b2") distinct known
  obtain ⟨symbols, slices⟩ := rows apart
  exact ⟨id, distinct, known, record.2 apart, symbols, slices "b1"⟩

theorem roots_apart {a b ra rb : String} (other : a ≠ b)
    (first : threeSources.sources.find? a = some ra)
    (second : threeSources.sources.find? b = some rb) :
    threeRoots.place ra ≠ threeRoots.place rb := by
  have listed : ∀ e ∈ threeSources.sources.entries, ∃ x ∈ rootFiles, e = (x.1, "/" ++ x.1) := by
    decide +kernel
  have root {name path : String} (found : threeSources.sources.find? name = some path) :
      threeRoots.place path = .ok [name] := by
    obtain ⟨e, there, rfl⟩ := Option.map_eq_some_iff.1 found
    obtain ⟨x, mem, rfl⟩ := listed e (List.mem_of_find?_eq_some there)
    have same : x.1 = name := by simpa using List.find?_some there
    subst same
    simp [FileTree.place, locate_root mem, bind, Except.bind]
  rw [root first, root second]
  simpa using other

/-- Different roots do not keep sources apart: a call over one source takes over the record that the
last call over another one has made of a file of the same name. -/
theorem shared_path_changes_hands : ¬ ∀ (r : Runner) (older since : List Pass) (q p : Pass)
    (path : String) (id : Int),
    (∀ x ∈ older ++ q :: since ++ [p], ∀ a b ra rb, a ≠ b → r.config.sources.find? a = some ra →
      r.config.sources.find? b = some rb → x.tree.place ra ≠ x.tree.place rb) →
    ((older ++ q :: since ++ [p]).map Pass.batchId).Nodup →
    (∀ x ∈ since, x.source ≠ q.source) → p.source ≠ q.source →
    r.Stages (r.storeAfter older) q path →
    (r.storeAfter (older ++ q :: since)).fileId? path = some id →
    (r.storeAfter (older ++ q :: since ++ [p])).file? path =
        (r.storeAfter (older ++ q :: since)).file? path ∧
      (r.storeAfter (older ++ q :: since ++ [p])).symbolsOf id =
        (r.storeAfter (older ++ q :: since)).symbolsOf id ∧
      (r.storeAfter (older ++ q :: since ++ [p])).fileSlices q.batchId id =
        (r.storeAfter (older ++ q :: since)).fileSlices q.batchId id := by
  intro isolated
  obtain ⟨stages, id, known⟩ := notes_known
  obtain ⟨regular, owners⟩ := storeAfter_spec overThree [passOver "a" "b1"]
  have again : overThree.Stages (overThree.storeAfter [passOver "a" "b1"]) (passOver "b" "b2")
      "notes.txt" :=
    (overThree_stages (x := ("b", "notes.txt")) (by decide) "b2").2 rfl
  obtain ⟨row, found, own⟩ := next_recordedBy regular again
  have kept := (isolated overThree [] [] (passOver "a" "b1") (passOver "b" "b2") "notes.txt" id
    (fun x mem a b ra rb other first second => by
      have tree : x.tree = threeRoots := by
        simp only [List.nil_append, List.cons_append, List.mem_cons, List.not_mem_nil, or_false] at mem
        obtain rfl | rfl := mem <;> rfl
      rw [tree]
      exact roots_apart other first second)
    (by decide) (fun _ mem => by cases mem) (by decide) stages known).1
  have old : "b2" ∈ [passOver "a" "b1"].map Pass.batchId :=
    owners "b2" "notes.txt" ⟨row, kept ▸ found, own⟩
  exact absurd old (by decide)

end Runner

end SourceSlices
