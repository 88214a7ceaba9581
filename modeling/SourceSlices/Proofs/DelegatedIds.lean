import SourceSlices.Proofs.ExactParts
import SourceSlices.Proofs.LinkedResults
import SourceSlices.Proofs.ParentLinks

/-!
Ids after a delegation. What the other handler found stands under ids that begin with the id of the part,
so the parts of its chunks stay together, no chunk is mistaken for another one or for the part, and the
way up from each of them ends at the part.
-/
namespace SourceSlices

open Text

/-! ### Ways up -/

/-- A part of one chunk names another one as the chunk that it was taken out of. -/
def Hangs (chunks : List Chunk) (child parent : String) : Prop :=
  ∃ c ∈ chunks, c.chunkId = child ∧ c.enclosing? = some parent

/-- All enclosing chunks are there, and none is above itself. -/
structure Hierarchy (chunks : List Chunk) : Prop where
  resolves : ∀ c ∈ chunks, RefersTo (chunkNames chunks) c.enclosing?
  acyclic : ∀ id, ¬ Relation.TransGen (Hangs chunks) id id

/-- Whichever of its parts one starts from, following enclosing chunks from a chunk ends at another one. -/
inductive LeadsTo (chunks : List Chunk) (target : String) : String → Prop
  | here (there : target ∈ chunkNames chunks) : LeadsTo chunks target target
  | up {id : String} (there : id ∈ chunkNames chunks)
      (enclosed : ∀ c ∈ chunks, c.chunkId = id → c.enclosing?.isSome = true)
      (above : ∀ parent, Hangs chunks id parent → LeadsTo chunks target parent) : LeadsTo chunks target id

/-- Enclosing chunks that first occur earlier form no cycle. -/
theorem hierarchy_of_firstPlace {chunks : List Chunk} (earlier : ∀ c ∈ chunks, ∀ p,
    c.enclosing? = some p → firstPlace chunks p < firstPlace chunks c.chunkId) : Hierarchy chunks := by
  constructor
  · intro c mem p named
    have bound : firstPlace chunks c.chunkId < chunks.length := firstPlace_lt_iff.2 ⟨c, mem, rfl⟩
    exact firstPlace_lt_iff.1 (Nat.lt_trans (earlier c mem p named) bound)
  · apply acyclic_of_rank (firstPlace chunks)
    rintro child parent ⟨c, mem, rfl, named⟩
    exact earlier c mem parent named

/-- What a part of a chunk holds, apart from its id and its metadata. -/
def Chunk.content (c : Chunk) : Nat × String × Nat × Nat × Nat :=
  (c.partIndex, c.text, c.tokenCount, c.startOffset, c.endOffset)

namespace Delegation

variable {read : ReadSource} {r : Reading} {path : String} {q : Request} {handler : Handler}
  {result : HandlerResult} {groups : List ChunkGroup}

/-! ### Taking over -/

/-- The id of what is taken over. -/
def Request.under (q : Request) (id : String) : String := q.id ++ "/" ++ id

theorem under_injective (q : Request) : Function.Injective q.under := by
  intro a b same
  exact (String.append_right_inj _).1 same

theorem under_ne (q : Request) (id : String) : q.under id ≠ q.id := by
  intro same
  have length := congrArg String.length same
  rw [Request.under, String.length_append, String.length_append] at length
  have slash : "/".length = 1 := rfl
  omega

def Request.takeChunk (q : Request) (c : Chunk) : Chunk := adoptChunk q q.under (q.startLine - 1) c

def Request.takeSymbol (q : Request) (y : Symbol) : Symbol := adoptSymbol q q.under (q.startLine - 1) y

def Request.takeGroup (q : Request) (g : ChunkGroup) : ChunkGroup :=
  ⟨q.under g.chunkId, g.parts.map q.takeChunk⟩

/-- The parts of the part. -/
def Request.parts (q : Request) (r : Reading) : List Chunk :=
  Split.chunk r.count (r.maxTokens q.parentHandler) none q.shell

theorem merge_chunks (r : Reading) (q : Request) (result : HandlerResult) :
    (merge r q result).chunks = q.parts r ++ result.chunks.map q.takeChunk := rfl

/-- Only a result without errors is merged. -/
theorem delegate_done (done : (delegate read r path q).status = .delegated) :
    ∃ handler, r.registry.instantiate q.delegate = .ok handler ∧
      (delegate read r path q).output = merge r q (read handler (r.delegated q.text) path) := by
  unfold delegate at done ⊢
  split at done
  · cases done
  · split at done
    · cases done
    · split at done
      · cases done
      · rename_i available deep _ handler found
        dsimp only at done
        split at done
        · rename_i fine
          refine ⟨handler, found, ?_⟩
          rw [if_neg available, if_neg deep]
          exact congrArg Outcome.output (if_pos fine)
        · cases done

/-! ### Groups -/

theorem text_shell (q : Request) : q.shell.text.toList = q.text := by
  rw [Request.shell]
  exact String.toList_ofList

theorem complete_parts (noText : r.count [] = 0)
    (fits : (byteLength q.text : Int) ≤ MetaValue.intMax) :
    ChunkGroup.Complete ⟨q.id, q.parts r⟩ := by
  rw [← text_shell] at fits
  exact Split.complete_chunk noText _ none fits

theorem parts_ne_nil (noText : r.count [] = 0) : q.parts r ≠ [] := Split.chunk_ne_nil noText _ none q.shell

theorem own_parts {p : Chunk} (mem : p ∈ q.parts r) : p.chunkId = q.id := Split.own_chunk mem

theorem joined_parts (noText : r.count [] = 0) : (q.parts r).flatMap (·.text.toList) = q.text :=
  (Split.joined_chunk noText _ none q.shell).trans (text_shell q)

theorem content_taken (q : Request) (g : ChunkGroup) :
    (q.takeGroup g).parts.map Chunk.content = g.parts.map Chunk.content := by
  have kept : Chunk.content ∘ q.takeChunk = Chunk.content := rfl
  rw [Request.takeGroup, List.map_map, kept]

theorem foreign_taken {p : Chunk} {chunks : List Chunk} (mem : p ∈ chunks.map q.takeChunk) :
    p.chunkId ≠ q.id := by
  obtain ⟨c, -, rfl⟩ := List.mem_map.1 mem
  exact under_ne q c.chunkId

/-- The groups of what is merged: that of the part, then those of the other handler under new ids. -/
theorem all_merge (noText : r.count [] = 0) (fits : (byteLength q.text : Int) ≤ MetaValue.intMax) :
    ChunkGroup.all (merge r q result).chunks =
      ⟨q.id, q.parts r⟩ :: (ChunkGroup.all result.chunks).map q.takeGroup := by
  rw [merge_chunks, ChunkGroup.all_append (parts_ne_nil noText) (fun p mem => own_parts mem)
    (fun p mem => foreign_taken mem) (complete_parts noText fits)]
  congr 1
  exact ChunkGroup.all_map (f := q.takeChunk) (under_injective q) (fun _ => rfl) (fun _ => rfl)
    result.chunks

theorem complete_taken {g : ChunkGroup} (whole : g.Complete) : (q.takeGroup g).Complete := by
  constructor
  · have index : (fun c => (q.takeChunk c).partIndex) = fun c => c.partIndex := rfl
    simpa [Request.takeGroup, Function.comp_def, index] using whole.numbered
  · intro p mem t recorded
    obtain ⟨c, there, rfl⟩ := List.mem_map.1 mem
    rw [Metadata.int?, Request.takeChunk, find?_adoptChunk (by decide) (by decide)] at recorded
    rw [Request.takeGroup, List.length_map]
    exact whole.totals c there t recorded

theorem ofChunks_merge (noText : r.count [] = 0) (fits : (byteLength q.text : Int) ≤ MetaValue.intMax)
    (accepted : ChunkGroup.ofChunks result.chunks = .ok groups) :
    ChunkGroup.ofChunks (merge r q result).chunks =
      .ok (⟨q.id, q.parts r⟩ :: groups.map q.takeGroup) := by
  obtain ⟨rfl, whole⟩ := ChunkGroup.ofChunks_ok_iff.1 accepted
  rw [ChunkGroup.ofChunks_ok_iff, all_merge noText fits]
  refine ⟨rfl, ?_⟩
  intro g mem
  rcases List.mem_cons.1 mem with rfl | mem
  · exact complete_parts noText fits
  · obtain ⟨g, there, rfl⟩ := List.mem_map.1 mem
    exact complete_taken (whole g there)

/-! ### The way up from what is taken over -/

theorem enclosing_taken (q : Request) (c : Chunk) :
    (q.takeChunk c).enclosing? = (c.enclosing?.map q.under).or (some q.id) :=
  adopt_enclosing q q.under _ c

theorem named_part (noText : r.count [] = 0) : q.id ∈ chunkNames (merge r q result).chunks := by
  obtain ⟨p, mem⟩ := List.exists_mem_of_ne_nil _ (parts_ne_nil (q := q) noText)
  exact ⟨p, List.mem_append_left _ mem, own_parts mem⟩

/-- A chunk that has an id of the other handler was taken over from it. -/
theorem taken_of_under {c : Chunk} {id : String} (mem : c ∈ (merge r q result).chunks)
    (same : c.chunkId = q.under id) : ∃ c' ∈ result.chunks, c'.chunkId = id ∧ q.takeChunk c' = c := by
  rcases List.mem_append.1 mem with part | taken
  · exact absurd (same.symm.trans (own_parts part)) (under_ne q id)
  · obtain ⟨c', there, rfl⟩ := List.mem_map.1 taken
    exact ⟨c', there, under_injective q same, rfl⟩

theorem leadsTo_part (noText : r.count [] = 0) (links : Hierarchy result.chunks) {c : Chunk}
    (mem : c ∈ result.chunks) : LeadsTo (merge r q result).chunks q.id (q.under c.chunkId) := by
  -- Along the links of the other handler, which are renamed with its chunks.
  apply induction_of_acyclic (l := result.chunks.map (·.chunkId)) links.acyclic
    (P := fun id => LeadsTo (merge r q result).chunks q.id (q.under id)) ?_ (List.mem_map_of_mem mem)
  intro id mem ih
  obtain ⟨c, there, rfl⟩ := List.mem_map.1 mem
  apply LeadsTo.up
  case there => exact ⟨q.takeChunk c, List.mem_append_right _ (List.mem_map_of_mem there), rfl⟩
  case enclosed =>
    intro p inside same
    obtain ⟨p', -, -, rfl⟩ := taken_of_under inside same
    rw [enclosing_taken]
    cases p'.enclosing? <;> rfl
  case above =>
    rintro parent ⟨p, inside, same, named⟩
    obtain ⟨p', own, same', rfl⟩ := taken_of_under inside same
    rw [enclosing_taken] at named
    cases linked : p'.enclosing? with
    | none =>
      -- What had no chunk around it hangs at the part.
      rw [linked] at named
      obtain rfl := Option.some.inj named
      exact .here (named_part noText)
    | some id' =>
      rw [linked] at named
      obtain rfl := Option.some.inj named
      obtain ⟨above, there', rfl⟩ := links.resolves p' own id' linked
      exact ih _ (List.mem_map_of_mem there') ⟨p', own, same', linked⟩

/-- A delegation never confuses ids: the parts of the part are one chunk, those of each chunk of the other
handler make one under the new id and hold what they held, and all these ids are different. From each of
them the enclosing chunks lead to the part, if those of the other handler are there and form no cycle. -/
theorem delegated_ids_apart (noText : r.count [] = 0)
    (fits : (byteLength q.text : Int) ≤ MetaValue.intMax)
    (found : r.registry.instantiate q.delegate = .ok handler)
    (accepted : ChunkGroup.ofChunks (read handler (r.delegated q.text) path).chunks = .ok groups)
    (done : (delegate read r path q).status = .delegated) :
    ChunkGroup.ofChunks (delegate read r path q).output.chunks =
        .ok (⟨q.id, q.parts r⟩ :: groups.map q.takeGroup) ∧
      (∀ g ∈ ⟨q.id, q.parts r⟩ :: groups.map q.takeGroup, g.parts ≠ [] ∧ g.Complete) ∧
      (q.parts r).flatMap (·.text.toList) = q.text ∧
      (∀ g ∈ groups, (q.takeGroup g).chunkId = q.id ++ "/" ++ g.chunkId ∧
        (q.takeGroup g).parts.map Chunk.content = g.parts.map Chunk.content) ∧
      (q.id :: groups.map fun g => q.under g.chunkId).Nodup ∧
      (Hierarchy (read handler (r.delegated q.text) path).chunks →
        ∀ c ∈ (delegate read r path q).output.chunks, c.chunkId ≠ q.id →
          LeadsTo (delegate read r path q).output.chunks q.id c.chunkId) := by
  obtain ⟨handler', found', output⟩ := delegate_done done
  obtain rfl := Except.ok.inj (found.symm.trans found')
  rw [output]
  have merged := ofChunks_merge (r := r) noText fits accepted
  refine ⟨merged, ?_, joined_parts noText, fun g _ => ⟨rfl, content_taken q g⟩, ?_, ?_⟩
  · obtain ⟨same, whole⟩ := ChunkGroup.ofChunks_ok_iff.1 merged
    intro g mem
    rw [same] at mem
    exact ⟨ChunkGroup.parts_ne_nil mem, whole g mem⟩
  · have distinct := ChunkGroup.nodup_all_ids (merge r q (read handler (r.delegated q.text) path)).chunks
    rw [← (ChunkGroup.ofChunks_ok_iff.1 merged).1, List.map_cons, List.map_map] at distinct
    exact distinct
  · intro links c mem other
    rcases List.mem_append.1 mem with part | taken
    · exact absurd (own_parts part) other
    · obtain ⟨c, there, rfl⟩ := List.mem_map.1 taken
      exact leadsTo_part noText links there

/-! The guide once more, as fenced code in a text of which few tokens make a part. -/

def tightReading : Reading :=
  { Staging.guideReading with config := { generalMaxTokens := .limit 25 } }

def guideFence : Request where
  delegate := "markdown"
  parentHandler := "markdown"
  component := some "fence"
  text := "# A\n\x60\x60\x60html\n<script>f()</script>\n\x60\x60\x60\n".toList
  startOffset := 23
  endOffset := 60
  startLine := 4
  parentSymbol := some "markdown:heading:0"
  parentChunk := some "markdown:section:0:65"

/-- The fence and the section in it have two parts each. -/
theorem guide_fence_ids_apart : ∃ groups : List ChunkGroup,
    groups.map (·.parts.length) = [2, 1, 1, 1, 1] ∧
    (guideFence.parts tightReading).length = 2 ∧
    ChunkGroup.ofChunks (delegate readSource tightReading "a.md" guideFence).output.chunks =
      .ok (⟨guideFence.id, guideFence.parts tightReading⟩ :: groups.map guideFence.takeGroup) ∧
    ∀ c ∈ (delegate readSource tightReading "a.md" guideFence).output.chunks,
      c.chunkId ≠ guideFence.id →
        LeadsTo (delegate readSource tightReading "a.md" guideFence).output.chunks guideFence.id
          c.chunkId := by
  let found := (readSource .markdown (tightReading.delegated guideFence.text) "a.md").chunks
  obtain ⟨whole, earlier⟩ : (∀ id ∈ ChunkGroup.idsOf found,
      ChunkGroup.Complete ⟨id, found.filter (·.chunkId = id)⟩) ∧
      ∀ c ∈ found, c.enclosing?.all (fun p =>
        firstPlace found p < firstPlace found c.chunkId) = true := by decide +kernel
  have links : Hierarchy found := by
    apply hierarchy_of_firstPlace
    intro c mem p named
    have all := earlier c mem
    rw [named] at all
    exact of_decide_eq_true all
  have accepted := ChunkGroup.ofChunks_of_filter whole
  obtain ⟨grouped, -, -, -, -, leads⟩ := delegated_ids_apart rfl (by decide +kernel) rfl accepted
    (by decide +kernel : (delegate readSource tightReading "a.md" guideFence).status = .delegated)
  exact ⟨_, by decide +kernel, by decide +kernel, grouped, leads links⟩

end Delegation

end SourceSlices
