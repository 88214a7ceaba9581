import SourceSlices.Proofs.SavedFiles
import SourceSlices.Proofs.SettingsText
import SourceSlices.Proofs.SharedPaths

/-!
Settings that are saved and loaded again. Wherever they come from, they are the same again if their two
thresholds are read as they are written: no gap is left for defaults to fill, and what is not written is
what is missing when it is read.
-/
namespace SourceSlices

namespace FileTree

variable {t t' : FileTree} {path : String} {bytes : List UInt8} {n : Int}

theorem locate_written (root : t.top.isDir = true) (wrote : t.write path bytes n = .ok t') :
    ∃ q, t'.locate path true = .ok (q, some (.file bytes n)) := by
  obtain ⟨q, e, found, leaf, rfl⟩ := write_ok_iff.1 wrote
  have here : t.top.HasDir [] := by
    cases top : t.top with
    | dir entries => exact ⟨entries, rfl⟩
    | file _ _ => rw [top] at root; cases root
    | link _ => rw [top] at root; cases root
  exact ⟨q, walk_written bytes n here found leaf⟩

theorem read_written (root : t.top.isDir = true) (wrote : t.write path bytes n = .ok t') :
    t'.exists? path = true ∧ t'.read path = .ok bytes := by
  obtain ⟨q, found⟩ := locate_written root wrote
  constructor
  · simp [exists?, entry?, found, bind, Except.bind, Except.toOption]
  · exact read_ok_iff.2 ⟨q, n, found⟩

end FileTree

namespace Config

open Json

variable {t t' : FileTree} {path stem text : String} {c : Config} {now : Instant}

theorem isToml_json (stem : String) : isToml (stem ++ ".json") = false := by
  have toml : ".toml".toList.reverse = 'l' :: ['m', 'o', 't', '.'] := rfl
  have json : (stem ++ ".json").toList.reverse = 'n' :: (['o', 's', 'j', '.'] ++ stem.toList.reverse) := by
    rw [String.toList_append, List.reverse_append]
    rfl
  rw [isToml, Text.dropSuffix?, json, toml]
  rfl

theorem json_ne_empty (stem : String) : stem ++ ".json" ≠ "" := by
  intro none
  have length := congrArg String.length none
  rw [String.length_append] at length
  have suffix : ".json".length = 5 := rfl
  have empty : "".length = 0 := rfl
  omega

theorem load_text (some : path ≠ "") (there : t.exists? path = true)
    (read : t.read path = .ok (Text.encodeUtf8 text)) : load t path = ofText path text := by
  simp only [load, if_neg some, there, read, Except.mapError, bind, Except.bind, Text.decodeUtf8_encodeUtf8]
  rfl

theorem of_ofText (done : ofText path text = .ok c) : c.Valid ∧ c.Complete := by
  unfold ofText at done
  dsimp only at done
  split at done
  · rename_i found
    cases done
    split at found
    · obtain ⟨v, -, data⟩ := Option.bind_eq_some_iff.1 found
      exact of_ofData data
    · unfold ofJson? at found
      split at found
      · exact of_ofData found
      · cases found
  · cases done

theorem of_load (loaded : load t path = .ok c) : c.Valid ∧ c.Complete := by
  unfold load at loaded
  dsimp only at loaded
  generalize (if path = "" then defaultPath else path) = path at loaded
  split at loaded
  · cases loaded
    exact ⟨valid_default, complete_default⟩
  · obtain ⟨bytes, -, done⟩ := bind_ok_iff.1 loaded
    split at done
    · exact of_ofText done
    · cases done

theorem save_ok_iff :
    c.save t path now = .ok t' ↔ t.write path (Text.encodeUtf8 c.text) now.toNanos = .ok t' := by
  unfold save
  cases t.write path (Text.encodeUtf8 c.text) now.toNanos <;> simp [Except.mapError]

/-- Settings that have been loaded, from either notation or without any file, and are saved as JSON: what
is loaded from there is the same exactly if both thresholds are read as they are written. -/
theorem load_saved_iff {t₁ t₂ : FileTree} (loaded : load t path = .ok c) (root : t₁.top.isDir = true)
    (saved : c.save t₁ (stem ++ ".json") now = .ok t₂) : load t₂ (stem ++ ".json") = .ok c ↔
      Echoes c.health.lockWaitWarningSeconds ∧ Echoes c.health.lockWaitErrorSeconds := by
  obtain ⟨valid, complete⟩ := of_load loaded
  obtain ⟨there, read⟩ := FileTree.read_written root (save_ok_iff.1 saved)
  rw [load_text (json_ne_empty stem) there read, ofText, isToml_json, ← Echo, ← ofJson?_text valid complete]
  cases ofJson? c.text <;> simp

/-- Settings in TOML, with most fields missing, a cap in words and a handler of another name. -/
def sparse : String :=
  "general_max_tokens = \" Auto \"\n[sources]\nbook = \"C:\\\\b\"\n" ++
    "[handlers.sql]\nenabled = false\nmax_tokens = 40\n[health]\nlock_wait_warning_seconds = 0.25\n"

/-- A directory with that file. -/
def sparseFile : FileTree where
  top := .dir [("settings.toml", .file (Text.encodeUtf8 sparse) 0)]

theorem load_sparseFile : load sparseFile "/settings.toml" = ofText "/settings.toml" sparse := by
  have named : FileTree.names (Path.join "/" "/settings.toml") = ["settings.toml"] := by decide +kernel
  have found : sparseFile.locate "/settings.toml" true =
      .ok (["settings.toml"], some (.file (Text.encodeUtf8 sparse) 0)) :=
    FileTree.locate_direct true named rfl (fun _ same => by cases same) (by decide)
  have there : sparseFile.exists? "/settings.toml" = true := by
    simp [FileTree.exists?, FileTree.entry?, found, bind, Except.bind, Except.toOption]
  exact load_text (by decide) there (FileTree.read_ok_iff.2 ⟨_, _, found⟩)

theorem sparse_saved : ∃ c t, load sparseFile "/settings.toml" = .ok c ∧
    c.generalMaxTokens = .auto ∧ c.handlers.find? "sql" = some ⟨false, some (.limit 40)⟩ ∧
    c.handlers.find? "css" = some {} ∧ sparseFile.top.isDir = true ∧
    c.save sparseFile ("/settings" ++ ".json") .epoch = .ok t ∧ load t ("/settings" ++ ".json") = .ok c := by
  have read : (ofToml? sparse).any (fun c => decide (c.generalMaxTokens = .auto ∧
      c.handlers.find? "sql" = some ⟨false, some (.limit 40)⟩ ∧ c.handlers.find? "css" = some {} ∧
      Echoes c.health.lockWaitWarningSeconds ∧ Echoes c.health.lockWaitErrorSeconds)) = true := by
    decide +kernel
  obtain ⟨c, found, own⟩ := (Option.any_eq_true ..).1 read
  obtain ⟨limit, sql, css, echo⟩ := of_decide_eq_true own
  have loaded : load sparseFile "/settings.toml" = .ok c := by
    have toml : isToml "/settings.toml" = true := by decide
    simp only [load_sparseFile, ofText, toml, if_true, found]
  have named : FileTree.names (Path.join "/" ("/settings" ++ ".json")) = ["settings.json"] := by
    decide +kernel
  have free : sparseFile.locate ("/settings" ++ ".json") true = .ok (["settings.json"], none) :=
    FileTree.locate_new named rfl (by decide)
  have saved : c.save sparseFile ("/settings" ++ ".json") .epoch = .ok _ :=
    save_ok_iff.2 (FileTree.write_ok_iff.2 ⟨_, _, free, (fun _ same => by cases same), rfl⟩)
  exact ⟨c, _, loaded, limit, sql, css, rfl, saved, (load_saved_iff loaded rfl saved).2 echo⟩

end Config

end SourceSlices
