import SourceSlices.Languages
import SourceSlices.Proofs.LinkedForest
import SourceSlices.Proofs.LinkedHosts
import SourceSlices.Proofs.Readback
import SourceSlices.Proofs.StagingConditions

/-!
Results of the languages are closed, however deep they delegate: what they refer to is there, before
what refers to it, and the handlers they name are registered. So they can be staged and put together.
-/
namespace SourceSlices

/-- Every reference of a result leads to something in it, parents and enclosing chunks to something
before it, and every handler that is named is registered. -/
structure HandlerResult.Closed (registered : String → Prop) (r : HandlerResult) : Prop where
  parents : ∀ before y after, r.symbols = before ++ y :: after → ∀ p, y.parentId = some p →
    ∃ x ∈ before, x.symbolId = p
  owners : ∀ c ∈ r.chunks, r.Resolves c.parentSymbolId
  delegating : ∀ c ∈ r.chunks, r.Resolves (c.metadata.str? "delegate_parent_symbol")
  enclosing : ∀ before c after, r.chunks = before ++ c :: after → ∀ p,
    c.metadata.str? "delegate_parent_chunk" = some p → ∃ a ∈ before, a.chunkId = p
  symbolHandlers : ∀ y ∈ r.symbols, ∀ h, y.metadata.str? "handler" = some h → registered h
  chunkHandlers : ∀ c ∈ r.chunks, ∀ h,
    c.delegate.or (c.metadata.str? "handler") = some h → registered h

theorem closed_of_linked {known : String → Prop} {result : HandlerResult}
    (linked : result.output.Linked known ∅ ∅) : result.Closed known where
  parents before y after split p named :=
    (linksBack_iff.1 linked.parents before y after split p named).resolve_left id
  owners c mem p named := ((linked.attached c mem).owner p named).resolve_left id
  delegating c mem p named := ((linked.attached c mem).delegating p named).resolve_left id
  enclosing before c after split p named :=
    (linksBack_iff.1 linked.enclosing before c after split p named).resolve_left id
  symbolHandlers := linked.handlers
  chunkHandlers c mem := (linked.attached c mem).handler

/-! ### All languages -/

theorem mem_languages {r : Registry} (languages : r.descriptors = Descriptor.defaults) {name : String}
    {h : Handler} (found : r.instantiate name = .ok h) : h ∈ Descriptor.defaults.map (·.handler) := by
  unfold Registry.instantiate at found
  split at found
  · rename_i d there
    cases found
    exact List.mem_map_of_mem (languages ▸ List.mem_of_find?_eq_some there)
  · cases found

/-- However many delegations are allowed below it, a language makes linked outputs. -/
theorem linked_readWithin (fuel : Nat) {h : Handler} (language : h ∈ Descriptor.defaults.map (·.handler))
    {r : Reading} (languages : r.registry.descriptors = Descriptor.defaults) (noText : r.count [] = 0)
    (path : String) :
    (readWithin fuel h r path).output.Linked r.Registered ∅ ∅ := by
  induction fuel generalizing h r path with
  | zero =>
    cases h with
    | text => exact Plain.linked_read r path
    | css => exact Css.linked_read r path
    | python => exact Python.linked_read r path
    | fixed => simp [Descriptor.defaults] at language
    | _ => exact linked_unreadable r path _ _
  | succ n ih =>
    have below : Delegation.LinkedBelow (readWithin n) r path :=
      ⟨noText, fun name h text found =>
        ih (mem_languages languages found) (r := r.delegated text) languages noText path⟩
    cases h with
    | text => exact Plain.linked_read r path
    | css => exact Css.linked_read r path
    | python => exact Python.linked_read r path
    | fixed => simp [Descriptor.defaults] at language
    | markdown => exact Markdown.linked_read path below
    | html => exact Html.linked_read path below
    | javascript => exact Script.linked_read .javascript path below
    | typescript => exact Script.linked_read .typescript path below

theorem linked_readSource {d : Descriptor} (default' : d ∈ Descriptor.defaults) {r : Reading}
    (languages : r.registry.descriptors = Descriptor.defaults) (noText : r.count [] = 0)
    (path : String) :
    (readSource d.handler r path).output.Linked r.Registered ∅ ∅ :=
  linked_readWithin _ (List.mem_map_of_mem default') languages noText path

/-! ### Staging -/

namespace Staging

variable {q : StageRequest} {now : Instant} {s t : Store} {o : StageOutcome}

theorem ofChunks_error {chunks : List Chunk} {e : Error} (failed : ChunkGroup.ofChunks chunks = .error e) :
    ∃ text, e = .integrity text := by
  obtain ⟨id, -, fault⟩ := exists_of_mapM_error failed
  unfold ChunkGroup.check at fault
  split at fault
  · cases fault
    exact ⟨_, rfl⟩
  · split at fault
    · cases fault
      exact ⟨_, rfl⟩
    · cases fault

theorem stageable_of_closed {registered : String → Prop} (closed : q.result.Closed registered)
    (versions : ∀ h, registered h → q.Knows h) (batch : s.hasBatch q.batchId = true)
    (chunks : Succeeds (ChunkGroup.ofChunks q.result.chunks)) : Stageable s q := by
  have knows {h : Option String} (named : ∀ h', h = some h' → registered h') :
      q.Knows (h.getD q.handlerName) := by
    cases h with
    | none => exact Or.inr rfl
    | some h' => exact versions h' (named h' rfl)
  have handler (c : Chunk) :
      chunkHandler q c = (c.delegate.or (c.metadata.str? "handler")).getD q.handlerName := by
    unfold chunkHandler
    cases c.delegate <;> rfl
  exact {
    batch, chunks
    symbolVersions y mem := knows (closed.symbolHandlers y mem)
    chunkVersions c mem := handler c ▸ knows (closed.chunkHandlers c mem)
    parents y mem p named := by
      obtain ⟨before, after, split⟩ := List.append_of_mem mem
      obtain ⟨x, there, same⟩ := closed.parents before y after split p named
      exact ⟨x, split ▸ List.mem_append_left _ there, same⟩
    owners := closed.owners
    delegating := closed.delegating }

/-- Of a closed result, only parts that do not fit together and a batch that is not recorded can be
refused. -/
theorem stage_error {registered : String → Prop} (closed : q.result.Closed registered)
    (versions : ∀ h, registered h → q.Knows h) {e : Error} (failed : stage s now q = .error e) :
    (∃ text, e = .integrity text) ∨ ∃ fault, e = .database fault := by
  cases grouped : ChunkGroup.ofChunks q.result.chunks with
  | error e' =>
    rw [stage, grouped] at failed
    cases failed
    exact Or.inl (ofChunks_error grouped)
  | ok groups =>
    rw [stage, grouped] at failed
    change ((s.upsertFile (fileInfo q)).mapError Error.database >>= _) = _ at failed
    cases file : s.upsertFile (fileInfo q) with
    | error fault =>
      rw [file] at failed
      cases failed
      exact Or.inr ⟨fault, rfl⟩
    | ok made =>
      obtain ⟨result, done⟩ := (stage_succeeds_iff now).2 (stageable_of_closed closed versions
        (Store.upsertFile_succeeds_iff.1 ⟨made, file⟩) ⟨groups, grouped⟩)
      rw [stage, grouped] at done
      cases failed.symm.trans done

/-! ### Results of the languages -/

/-- Whatever a language finds in a text, at whatever depth, its result is closed, if only the empty
text costs no token. So no reference and no version is missing when the result is staged by a request
that has the versions of all handlers, and when it is put together again under a fresh batch, no
parent is missing and no links form a cycle. -/
theorem default_handlers_closed {d : Descriptor} (default' : d ∈ Descriptor.defaults) {r : Reading}
    (languages : r.registry.descriptors = Descriptor.defaults) (noText : r.count [] = 0)
    (path : String) :
    (readSource d.handler r path).Closed r.Registered ∧
      ∀ q : StageRequest, q.result = readSource d.handler r path →
        (∀ d ∈ r.registry.descriptors, (q.versions.find? d.name).isSome = true) →
        (∀ s now key, stage s now q ≠ .error (.missingSymbol key)) ∧
        (∀ s now h, stage s now q ≠ .error (.missingHandlerVersion h)) ∧
        ∀ calls now t o, stage (Ledger.after calls).store now q = .ok (t, o) → Countable q.result →
          (Ledger.after calls).store.Fresh q.batchId (repoPath q) →
          ∀ text, Recomposition.ofFile t q.batchId o.fileId ≠ .error (.integrity text) := by
  have linked := linked_readSource default' languages noText path
  have closed := closed_of_linked linked
  refine ⟨closed, fun q read versions => ?_⟩
  have knows (h : String) (registered : r.registry.contains h = true) : q.Knows h := by
    obtain ⟨d, found⟩ := Option.isSome_iff_exists.1 registered
    have same : d.name = h := by simpa using List.find?_some found
    exact Or.inl (same ▸ versions d (List.mem_of_find?_eq_some found))
  rw [← read] at linked closed
  refine ⟨fun s now key failed => ?_, fun s now h failed => ?_, ?_⟩
  · rcases stage_error closed knows failed with ⟨_, other⟩ | ⟨_, other⟩ <;> cases other
  · rcases stage_error closed knows failed with ⟨_, other⟩ | ⟨_, other⟩ <;> cases other
  · intro calls now t o done countable fresh text failed
    have sound := Ledger.sound_after calls
    have soundT := sound_stage sound done
    have write := stage_effect sound countable done
    have all := shows_of_unseen soundT countable (unseen_of_fresh fresh (stage_number sound done)) write
    obtain ⟨detail, other⟩ := Recomposition.recompose_linked linked write.complete all
      (Store.fileSlices_ordered soundT _ _) failed
    cases other

/-! A guide in which a page in fenced code holds a script. -/

def guideReading : Reading where
  root := "/"
  config := {}
  count cs := cs.length
  autoBudget := 100
  registry := { descriptors := Descriptor.defaults, settings := {} }
  readers := {
    css _ := default
    html _ := ⟨"document", true, none, 0, 21, false,
      [⟨"script_element", true, none, 0, 20, false,
        [⟨"start_tag", true, none, 0, 8, false, [⟨"tag_name", true, none, 1, 7, false, []⟩]⟩,
          ⟨"raw_text", true, none, 8, 11, false, []⟩]⟩]⟩
    python _ := default
    javascript _ := ⟨"program", true, none, 0, 3, false,
      [⟨"expression_statement", true, none, 0, 3, false, []⟩]⟩
    typescript _ := default
    tsx _ := default
    markdown _ := [⟨.headingStart 1, 0, 3⟩, ⟨.text "A", 2, 3⟩, ⟨.headingEnd, 0, 3⟩,
      ⟨.fenceStart "html", 4, 36⟩, ⟨.text "<script>f()</script>\n", 12, 33⟩, ⟨.codeEnd, 4, 36⟩] }
  disk _ := .error .notFound
  view := some "# A\n\x60\x60\x60html\n<script>f()</script>\n\x60\x60\x60\n".toList

def guideRequest : StageRequest where
  batchId := "b1"
  handlerName := "markdown"
  handlerVersion := "1.0.0"
  versions := guideReading.registry.versions
  result := readSource .markdown guideReading "a.md"

/-- The section, the page and the script in it, each as a part and as what its handler finds. -/
theorem guide_with_script_closed :
    guideRequest.result.chunks.length = 5 ∧
      guideRequest.result.Closed guideReading.Registered ∧
      ∃ t o, stage (Ledger.after twoBatches).store .epoch guideRequest = .ok (t, o) ∧
        ∀ text, Recomposition.ofFile t "b1" o.fileId ≠ .error (.integrity text) := by
  have language : Descriptor.defaults[1] ∈ Descriptor.defaults := List.getElem_mem _
  obtain ⟨closed, staged⟩ := default_handlers_closed (r := guideReading) language rfl rfl "a.md"
  obtain ⟨-, -, recomposed⟩ := staged guideRequest rfl (by decide +kernel)
  obtain ⟨⟨t, o⟩, done⟩ := (stage_succeeds_iff .epoch).2
    (by decide +kernel : Stageable (Ledger.after twoBatches).store guideRequest)
  exact ⟨by decide +kernel, closed, t, o, done, recomposed _ .epoch t o done
    (countable_of_length (by decide +kernel)) fun fileId there => by cases there⟩

end Staging

end SourceSlices
