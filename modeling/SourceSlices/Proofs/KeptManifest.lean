import SourceSlices.Proofs.LastBatches
import SourceSlices.Proofs.ManifestReadback

/-!
A change of the state of one source, written to the manifest and loaded again. What belongs to others is
kept, on both levels, and so are the other sources; a manifest that cannot be read is left alone. But the
numbers of a state go through their text, and a double may be read as another one than was written.
-/

/-!
### Paths without links

Saving where no link has the name of the file or of its draft. Making directories and writing files
add no links, so the draft is a file of its own, and once it has been moved the path leads to it.
-/
namespace SourceSlices

namespace FileEntry

variable {v top : FileEntry} {place x : List String} {target : String}

/-- No entry below it is a link, nor is it one itself. -/
def Plain (v : FileEntry) : Prop := ∀ x target, v.at? x ≠ some (.link target)

theorem plain_file (bytes : List UInt8) (n : Int) : (FileEntry.file bytes n).Plain := by
  intro x target there
  cases x <;> cases there

theorem plain_dir : (FileEntry.dir []).Plain := by
  intro x target there
  cases x <;> cases there

/-- Entries that are put into a tree without links of their own bring none. -/
theorem link_of_set (plain : v.Plain) (there : (set (some v) place top).at? x = some (.link target)) :
    top.at? x = some (.link target) := by
  induction place generalizing top x with
  | nil => exact absurd there (plain x target)
  | cons m place ih =>
    cases top with
    | file _ _ => cases place <;> exact there
    | link _ => cases place <;> exact there
    | dir entries =>
      cases x with
      | nil => cases place <;> cases there
      | cons k x =>
        cases place with
        | nil =>
          change ((FileEntry.dir (putChild entries m (some v))).child? k).bind (·.at? x) = _ at there
          by_cases same : k = m
          · rw [same, child?_putChild_self] at there
            exact absurd there (plain x target)
          · rwa [child?_putChild_other entries same] at there
        | cons m' place =>
          change ((FileEntry.dir (entries.map fun x => if x.1 = m then
            (x.1, set (some v) (m' :: place) x.2) else x)).child? k).bind (·.at? x) = _ at there
          -- Only below the changed entry there can be something new, and there it is the induction that
          -- decides.
          rw [child?_change] at there
          split at there
          · obtain ⟨y, changed, below⟩ := Option.bind_eq_some_iff.1 there
            obtain ⟨z, child, rfl⟩ := Option.map_eq_some_iff.1 changed
            rw [at?, child]
            exact ih below
          · exact there

end FileEntry

namespace FileTree

open FileEntry

variable {t t' between : FileTree} {path : String} {place todo : List String} {bytes : List UInt8} {n : Int}

/-- No link has the last name of a path. -/
def Unlinked (t : FileTree) (path : String) : Prop :=
  ∀ place name target, t.top.at? (place ++ [name]) = some (.link target) →
    (names (t.absolute path)).getLast? ≠ some name

theorem Unlinked.put {v : FileEntry} (unlinked : t.Unlinked path) (plain : v.Plain) (place : List String) :
    (t.put place (some v)).Unlinked path :=
  fun at' name target there => unlinked at' name target (link_of_set plain there)

theorem Unlinked.makeEach (unlinked : t.Unlinked path) (made : t.makeEach place todo = .ok t') :
    t'.Unlinked path := by
  induction todo generalizing t place with
  | nil =>
    cases made
    exact unlinked
  | cons name rest ih =>
    rw [FileTree.makeEach] at made
    split at made
    · exact ih unlinked made
    · cases made
    · split at made
      · cases made
      · exact ih (unlinked.put plain_dir _) made
    · cases made

theorem Unlinked.write (unlinked : t.Unlinked path) {draft : String}
    (wrote : t.write draft bytes n = .ok t') : t'.Unlinked path := by
  obtain ⟨q, e, -, -, rfl⟩ := write_ok_iff.1 wrote
  exact unlinked.put (plain_file bytes n) q

namespace Moved

variable {before after : FileEntry} {dir : List String} {source target : String} {q : List String}
  {e : Option FileEntry} {links : Nat}

/-- What led to the new place leads to the file that has been moved there. -/
theorem arrives (moved : Moved before after dir source target (.file bytes n))
    (free : ∀ l, before.at? (dir ++ [target]) ≠ some (.link l)) (here : before.HasDir place)
    (done : walk before false links place todo = .ok (dir ++ [target], e)) (leaf : ∀ es, e ≠ some (.dir es)) :
    walk after true links place todo = .ok (dir ++ [target], some (.file bytes n)) := by
  generalize ends : dir ++ [target] = q at done ⊢
  -- Nothing on the way is at the old place, which is a file, or at the new one, which is the end.
  fun_induction walk before false links place todo with
  | case1 links place =>
    cases done
    obtain ⟨es, there⟩ := here
    exact absurd there (leaf es)
  | case2 links place rest ih =>
    rw [walk_dot]
    exact ih here done
  | case3 links place rest dot ih =>
    rw [walk_up]
    exact ih here.dropLast done
  | case4 links place name rest dot dots _ last =>
    obtain rfl := List.isEmpty_iff.1 last
    obtain ⟨same, -⟩ := Prod.mk.inj (Except.ok.inj done)
    rw [walk_file dot dots (same ▸ ends ▸ moved.there), same]
  | case6 links place name rest dot dots entries there ih =>
    obtain ⟨es, inside⟩ := moved.dir_seen ⟨entries, there⟩
    rw [walk_into dot dots inside]
    exact ih ⟨entries, there⟩ done
  | case7 links place name rest dot dots _ _ _ last =>
    obtain rfl := List.isEmpty_iff.1 last
    obtain ⟨same, -⟩ := Prod.mk.inj (Except.ok.inj done)
    rw [walk_file dot dots (same ▸ ends ▸ moved.there), same]
  | case9 links place name rest dot dots l there last =>
    obtain ⟨same, -⟩ := Prod.mk.inj (Except.ok.inj done)
    rw [same, ← ends] at there
    exact absurd there (free l)
  | case11 place name rest dot dots l there further links ih =>
    have linked := seen_link (moved.others _ _ there
      (fun same => by
        rw [same] at there
        cases moved.moved.symm.trans there)
      fun same => free l (same ▸ there))
    rw [walk_through dot dots linked (by simp)]
    exact ih (here.linked l) done
  | case5 => cases done
  | case8 => cases done
  | case10 => cases done

end Moved

/-- A file that is saved where no link has its name or that of its draft can be read. -/
theorem read_unlinked (unlinked : t.Unlinked path) (unlinked' : t.Unlinked (path ++ ".tmp"))
    (wrote : t.write (path ++ ".tmp") bytes n = .ok between)
    (moved : between.rename (path ++ ".tmp") path = .ok t') : t'.read path = .ok bytes := by
  have free := unlinked.write wrote
  have free' := unlinked'.write wrote
  obtain ⟨W, r, written, leaf, rfl⟩ := write_ok_iff.1 wrote
  obtain ⟨q, e, q', e', source, target, leaf', rfl⟩ := rename_ok_iff.1 moved
  obtain ⟨front, draft, name, drafted, named, dot, dots, apart⟩ := names_draft t.cwd path
  simp only [Unlinked, locate, absolute, put, drafted, named, List.getLast?_concat, ne_eq,
    Option.some.injEq] at written source target free free'
  have root := hasDir_of_walk dot dots source
  have written := walk_written bytes n
    (hasDir_of_set (fun es same => by cases same) root) written leaf
  refine read_ok_iff.2 ⟨q', n, ?_⟩
  simp only [locate, absolute, put, named]
  generalize FileEntry.set _ W t.top = top at source target written root free free' ⊢
  obtain ⟨links, dir, inside, last⟩ := walk_front root rfl target
  have target' := target
  rw [last] at source target' written
  have solid := walk_solid dot dots written source
  obtain ⟨-, -, rfl, own⟩ := walk_last inside source (fun es same => solid es (Option.some.inj same))
  obtain ⟨dot', dots', rfl, there⟩ := walk_last inside target' leaf'
  -- the draft is the file that was written, since it is no link
  have file : e = .file bytes n := by
    rw [walk, if_neg dot, if_neg dots, ← own] at written
    cases e with
    | dir es => exact absurd rfl (solid es)
    | link l => exact absurd rfl (free' dir draft l own.symm)
    | file content time =>
      cases written
      rfl
  subst file
  have taken : ¬ top.HasDir (dir ++ [name]) := by
    rintro ⟨es, here⟩
    exact leaf' es (there.trans here)
  exact (moved_set inside own.symm solid taken apart).arrives (fun l same => free dir name l same rfl)
    root target leaf'

end FileTree

namespace Manifest

variable {m : Manifest} {t t' : FileTree} {path : String} {now : Instant}

theorem read_saved (unlinked : t.Unlinked path) (unlinked' : t.Unlinked (path ++ ".tmp"))
    (saved : m.save t path now = .ok t') : t'.read path = .ok (Text.encodeUtf8 m.text) := by
  unfold save at saved
  split at saved
  · simp only [bind_ok_iff, mapError_ok_iff] at saved
    obtain ⟨within, made, draft, wrote, moved⟩ := saved
    exact FileTree.read_unlinked (unlinked.makeEach made) (unlinked'.makeEach made) wrote moved
  · simp only [bind_ok_iff, mapError_ok_iff] at saved
    obtain ⟨within, same, draft, wrote, moved⟩ := saved
    cases same
    exact FileTree.read_unlinked unlinked unlinked' wrote moved

end Manifest

end SourceSlices

namespace SourceSlices

open Json

namespace Manifest

variable {m m' : Manifest} {t t' : FileTree} {path source : String} {now : Instant}
  {change : RunState → RunState} {s : RunState}

/-- All that belongs to others, and all other sources, are as they were. -/
structure Keeps (m m' : Manifest) (source : String) : Prop where
  others : m'.others = m.others
  sources : ∀ other, other ≠ source → m'.sources.find? other = m.sources.find? other
  entry : ((m'.sources.find? source).getD {}).others = ((m.sources.find? source).getD {}).others

/-- There is one manifest only that keeps all that and has the new state. -/
theorem keeps_iff : m.Keeps m' source ∧ m'.state? source = some (m.update source change).2 ↔
    m' = (m.update source change).1 := by
  constructor
  · rintro ⟨keeps, state⟩
    have sources : m'.sources = (m.update source change).1.sources := by
      refine SortedMap.ext_find? fun key => ?_
      by_cases own : key = source
      · subst own
        obtain ⟨e, there, named⟩ := Option.bind_eq_some_iff.1 state
        have entry := keeps.entry
        rw [there, Option.getD_some] at entry
        rw [there, update, SortedMap.find?_insert_self, ← entry]
        obtain ⟨state', others⟩ := e
        exact congrArg (fun x => some (SourceEntry.mk x others)) named
      · rw [keeps.sources key own, update, SortedMap.find?_insert_ne own]
    obtain ⟨sources', others⟩ := m'
    obtain rfl : others = m.others := keeps.others
    exact congrArg (Manifest.mk · m.others) sources
  · rintro rfl
    refine ⟨⟨rfl, fun other apart => SortedMap.find?_insert_ne apart _, ?_⟩, (state?_update m source change).2⟩
    simp only [update, SortedMap.find?_insert_self, Option.getD_some]

/-- All states come back if the new one does, and those of the other sources. -/
theorem restorable_update_iff : (m.update source change).1.Restorable ↔
    (m.update source change).2.Restorable ∧
      ∀ other x, other ≠ source → m.state? other = some x → x.Restorable := by
  have kept {other : String} (apart : other ≠ source) :
      (m.update source change).1.sources.find? other = m.sources.find? other :=
    SortedMap.find?_insert_ne apart _
  constructor
  · intro all
    have each {key : String} {e : SourceEntry} (there : (m.update source change).1.sources.find? key = some e) :
        ∀ s ∈ e.state, s.Restorable :=
      all e (List.mem_map_of_mem (f := Prod.snd) (SortedMap.find?_eq_some_iff.1 there))
    refine ⟨each (SortedMap.find?_insert_self _ _ _) _ rfl, fun other x apart state => ?_⟩
    obtain ⟨e, there, named⟩ := Option.bind_eq_some_iff.1 state
    exact each ((kept apart).trans there) x named
  · rintro ⟨own, others⟩ e mem x state
    obtain ⟨⟨key, e⟩, there, rfl⟩ := List.mem_map.1 mem
    have found := SortedMap.find?_eq_some_iff.2 there
    by_cases same : key = source
    · subst same
      rw [update, SortedMap.find?_insert_self] at found
      obtain rfl := Option.some.inj found
      obtain rfl := Option.some.inj state
      exact own
    · rw [kept same] at found
      exact others key x same (by rw [state?, found]; exact state)

/-- Recording a state changes and saves what was loaded, if something was. -/
theorem record_ok_iff : record t path now source change = .ok (t', s) ↔ ∃ m, load t path = .ok m ∧
    s = (m.update source change).2 ∧ (m.update source change).1.save t path now = .ok t' := by
  simp only [record, bind_ok_iff]
  constructor
  · rintro ⟨m, loaded, t', saved, same⟩
    cases same
    exact ⟨m, loaded, rfl, saved⟩
  · rintro ⟨m, loaded, rfl, saved⟩
    exact ⟨m, loaded, t', saved, rfl⟩

theorem load_saved_eq (saved : m.save t path now = .ok t') {bytes : List UInt8}
    (read : t'.read path = .ok bytes) : load t' path = ofText m.text := by
  obtain ⟨within, draft, wrote, moved⟩ := save_steps saved
  obtain rfl := FileTree.read_replaced wrote moved read
  exact load_text read

/-- A change of the state of one source is recorded only over a manifest that can be loaded. The file
that is written can be read if no link has its name or that of its draft. What is loaded from it has the
new state, all that others have put into the manifest, and all other sources, exactly if that state and
those of the other sources come back from their text. -/
theorem record_keeps_iff (t : FileTree) (path : String) (now : Instant) (source : String)
    (change : RunState → RunState) :
    (∀ e, load t path = .error e → record t path now source change = .error e) ∧
    ∀ m, load t path = .ok m → m.Echoes → ∀ t' s, record t path now source change = .ok (t', s) →
      s = change ((m.state? source).getD {}) ∧
      (t.Unlinked path → t.Unlinked (path ++ ".tmp") → ∃ bytes, t'.read path = .ok bytes) ∧
      ((∃ m', load t' path = .ok m' ∧ m.Keeps m' source ∧ m'.state? source = some s) ↔
        (∃ bytes, t'.read path = .ok bytes) ∧ s.Restorable ∧
          ∀ other x, other ≠ source → m.state? other = some x → x.Restorable) := by
  constructor
  · intro e failed
    simp only [record, failed, bind, Except.bind]
  · intro m loaded echoes t' s recorded
    obtain ⟨m', loaded', rfl, saved⟩ := record_ok_iff.1 recorded
    obtain rfl := Except.ok.inj (loaded.symm.trans loaded')
    refine ⟨(state?_update m source change).1, fun free free' => ⟨_, read_saved free free' saved⟩, ?_⟩
    rw [← restorable_update_iff]
    have restores := ofText_text_iff (settled_update (settled_of_load loaded) source change)
      (echoes_update echoes source change)
    constructor
    · rintro ⟨m', loaded', keeps, state⟩
      have readable : ∃ bytes, t'.read path = .ok bytes := by
        unfold load at loaded'
        split at loaded'
        · cases loaded'
          cases state
        · cases loaded'
        · exact ⟨_, ‹_›⟩
      obtain ⟨bytes, read⟩ := readable
      obtain rfl := keeps_iff.1 ⟨keeps, state⟩
      rw [load_saved_eq saved read] at loaded'
      exact ⟨⟨bytes, read⟩, restores.1 loaded'⟩
    · rintro ⟨⟨bytes, read⟩, all⟩
      obtain ⟨keeps, state⟩ := keeps_iff.2 (Eq.refl (m.update source change).1)
      exact ⟨_, (load_saved_eq saved read).trans (restores.2 all), keeps, state⟩

/-! ### A manifest with members of others -/

def noted : Manifest where
  others := .ofList [("owner", .str "team"), ("limits", .obj [("deep", .arr [.null, .int 3]), ("share", .bool true)])]
  sources := .ofList [
    ("book", { state := some { lastBatchId := some "b1" } }),
    ("site", { state := some {}, others := .ofList [("path", .str "web/")] })]

theorem noted_others : noted.others.entries =
    [("limits", .obj [("deep", .arr [.null, .int 3]), ("share", .bool true)]), ("owner", .str "team")] := rfl

theorem noted_sources : noted.sources.values =
    [{ state := some { lastBatchId := some "b1" } },
      { state := some {}, others := .ofList [("path", .str "web/")] }] := rfl

theorem settled_noted : noted.Settled := by
  have site : (SortedMap.ofList [("path", Json.str "web/")]).entries = [("path", .str "web/")] := rfl
  refine ⟨⟨by decide +kernel, ?_, by decide +kernel⟩, ?_⟩
  · rw [noted_others]
    exact List.forall_mem_cons.2 ⟨rfl, List.forall_mem_cons.2 ⟨rfl, fun _ none => by cases none⟩⟩
  · rw [noted_sources]
    refine List.forall_mem_cons.2 ⟨foreign_empty _ _, List.forall_mem_cons.2 ⟨⟨?_, ?_, ?_⟩,
      fun _ none => by cases none⟩⟩
    · decide +kernel
    · rw [site]
      exact List.forall_mem_cons.2 ⟨rfl, fun _ none => by cases none⟩
    · decide +kernel

theorem echoes_noted : noted.Echoes := by
  have three : ReadsAs (.int 3) (.int 3) := .int (read_nat (by decide))
  constructor
  · rw [SortedMap.values, noted_others]
    refine List.forall_mem_cons.2 ⟨.obj rfl ?_, List.forall_mem_cons.2 ⟨.str _, fun _ none => by cases none⟩⟩
    exact .cons (.arr (.cons .null (.cons three .nil))) (.cons (.bool true) .nil)
  · rw [noted_sources]
    have site : (SortedMap.ofList [("path", Json.str "web/")]).values = [.str "web/"] := rfl
    refine List.forall_mem_cons.2 ⟨fun _ none => (by cases none), List.forall_mem_cons.2 ⟨?_,
      fun _ none => by cases none⟩⟩
    rw [site]
    exact List.forall_mem_cons.2 ⟨.str _, fun _ none => by cases none⟩

theorem restorable_quiet : ({} : RunMetrics).Restorable := ⟨by decide +kernel, by decide +kernel⟩

theorem restorable_noted : noted.Restorable := by
  have quiet {x : Option String} : ({ lastBatchId := x } : RunState).Restorable :=
    ⟨restorable_quiet, fun _ none => (by cases none), fun _ none => by cases none⟩
  rw [Restorable, noted_sources]
  refine List.forall_mem_cons.2 ⟨fun s own => ?_, List.forall_mem_cons.2 ⟨fun s own => ?_,
    fun _ none => by cases none⟩⟩
  · obtain rfl := Option.some.inj own
    exact quiet
  · obtain rfl := Option.some.inj own
    exact quiet

/-- A directory with one file. -/
def lone (bytes : List UInt8) : FileTree where
  top := .dir [("manifest.json", .file bytes 0)]

theorem lone_names : FileTree.names (Path.join "/" "/manifest.json") = ["manifest.json"] ∧
    FileTree.names (Path.join "/" "/manifest.json.tmp") = ["manifest.json.tmp"] := by
  decide +kernel

theorem load_lone (text : String) : load (lone (Text.encodeUtf8 text)) "/manifest.json" = ofText text :=
  load_text (FileTree.read_direct ["manifest.json"] lone_names.1 rfl (by decide))

theorem load_noted : load (lone (Text.encodeUtf8 noted.text)) "/manifest.json" = .ok noted := by
  rw [load_lone]
  exact (ofText_text_iff settled_noted echoes_noted).2 restorable_noted

/-- The file can be replaced. -/
theorem save_lone (m : Manifest) (old : List UInt8) (now : Instant) : ∃ t',
    m.save (lone old) "/manifest.json" now = .ok t' := by
  have parent : Path.parent? "/manifest.json" = some "/" ∧ Path.components (Path.join "/" "/") = [] := by
    decide +kernel
  have made : (lone old).makeDirs "/" = .ok (lone old) := by
    show (lone old).makeEach [] (Path.components (Path.join "/" "/")) = _
    rw [parent.2]
    rfl
  have draft : (lone old).locate "/manifest.json.tmp" true = .ok (["manifest.json.tmp"], none) :=
    FileTree.locate_new lone_names.2 rfl (by decide)
  generalize written : Text.encodeUtf8 m.text = bytes
  have source : ((lone old).put ["manifest.json.tmp"] (some (.file bytes now.toNanos))).locate
      "/manifest.json.tmp" false = .ok (["manifest.json.tmp"], some (.file bytes now.toNanos)) :=
    FileTree.locate_direct false lone_names.2 rfl (fun _ same => by cases same) (by decide)
  have target : ((lone old).put ["manifest.json.tmp"] (some (.file bytes now.toNanos))).locate
      "/manifest.json" false = .ok (["manifest.json"], some (.file old 0)) :=
    FileTree.locate_direct false lone_names.1 rfl (fun _ same => by cases same) (by decide)
  have suffix : "/manifest.json" ++ ".tmp" = "/manifest.json.tmp" := rfl
  simp only [save, parent.1, suffix, made, FileTree.write, draft, FileTree.rename, source, target,
    written, Except.mapError, bind, Except.bind]
  exact ⟨_, rfl⟩

theorem plain_lone (bytes : List UInt8) : (lone bytes).top.Plain := by
  intro x target there
  cases x with
  | nil => cases there
  | cons name x =>
    obtain ⟨e, child, below⟩ := Option.bind_eq_some_iff.1 there
    obtain ⟨y, found, rfl⟩ := Option.map_eq_some_iff.1 child
    obtain rfl := List.mem_singleton.1 (List.mem_of_find?_eq_some found)
    exact FileEntry.plain_file bytes 0 x target below

theorem unlinked_lone (bytes : List UInt8) (path : String) : (lone bytes).Unlinked path :=
  fun _ _ target there => absurd there (plain_lone bytes _ target)

/-- A run whose numbers are easy to write. -/
def finished (s : RunState) : RunState :=
  { s with
    lastBatchId := some "b2"
    lastRunStartedAt := some ⟨978307199, 1500000000⟩
    lastRunStatus := .ok
    metrics := { filesDiscovered := 7, filesParsed := 7, lockWaitSeconds := 0.5 } }

/-- It began in a leap second. All members of others are kept. -/
theorem finished_run_kept : load (lone (Text.encodeUtf8 noted.text)) "/manifest.json" = .ok noted ∧
    noted.Echoes ∧ ∃ t', record (lone (Text.encodeUtf8 noted.text)) "/manifest.json" .epoch "site" finished =
      .ok (t', finished {}) ∧
      ∃ m', load t' "/manifest.json" = .ok m' ∧ noted.Keeps m' "site" ∧
        m'.state? "site" = some (finished {}) := by
  obtain ⟨t', saved⟩ := save_lone (noted.update "site" finished).1 (Text.encodeUtf8 noted.text) .epoch
  have recorded : record (lone (Text.encodeUtf8 noted.text)) "/manifest.json" .epoch "site" finished =
      .ok (t', finished {}) := record_ok_iff.2 ⟨noted, load_noted, rfl, saved⟩
  obtain ⟨-, readable, kept⟩ :=
    (record_keeps_iff _ _ _ _ _).2 noted load_noted echoes_noted t' _ recorded
  have restorable : (finished {}).Restorable := by
    refine ⟨⟨by decide +kernel, by decide +kernel⟩, fun t same => ?_, fun _ none => by cases none⟩
    obtain rfl := Option.some.inj same
    exact .inr (by decide)
  refine ⟨load_noted, echoes_noted, t', recorded, kept.2 ⟨readable (unlinked_lone _ _) (unlinked_lone _ _),
    restorable, fun other x _ state => ?_⟩⟩
  obtain ⟨e, there, named⟩ := Option.bind_eq_some_iff.1 state
  exact restorable_noted e (List.mem_map_of_mem (SortedMap.find?_eq_some_iff.1 there)) x named

/-- A run that has waited for long. -/
def awaited (s : RunState) : RunState := { s with metrics := { lockWaitSeconds := 9007199254740991.0 } }

/-- Its state is recorded, but is not the one that is loaded after that. -/
theorem long_wait_not_kept : load (lone (Text.encodeUtf8 noted.text)) "/manifest.json" = .ok noted ∧
    noted.Echoes ∧ (∀ x ∈ (awaited {}).metrics.doubles, Decimal.isFiniteNumber x = true) ∧
    ∃ t', record (lone (Text.encodeUtf8 noted.text)) "/manifest.json" .epoch "site" awaited =
      .ok (t', awaited {}) ∧
      ∀ m', load t' "/manifest.json" = .ok m' → m'.state? "site" ≠ some (awaited {}) := by
  obtain ⟨t', saved⟩ := save_lone (noted.update "site" awaited).1 (Text.encodeUtf8 noted.text) .epoch
  refine ⟨load_noted, echoes_noted, by decide +kernel, t', record_ok_iff.2 ⟨noted, load_noted, rfl, saved⟩,
    fun m' loaded state => ?_⟩
  rcases load_saved saved loaded with rfl | done
  · cases state
  · have restorable := restorable_of_state (state?_update noted "site" awaited).2 done state
    exact absurd (restorable.metrics.doubles _ List.mem_cons_self) (by decide +kernel)

end Manifest

end SourceSlices
