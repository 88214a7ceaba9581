import SourceSlices.Proofs.StagingEffect

/-!
Versions of a chunk. As long as no batch is used twice for a file and every part records how many
parts its chunk has, the rows of a chunk fall apart into whole versions, and a batch has seen all
rows of a version or none. The newest rows of the parts are then those of one version whenever they
agree on their number.
-/
namespace SourceSlices

/-- The rows of one version of a chunk, in the order of their indices, with the batch that wrote
them and the last one that wrote or confirmed them. -/
structure Version where
  writer : String
  seen : String
  rows : List Slice

namespace Version

def Holds (v : Version) (batch : String) : Prop := v.writer = batch ∨ v.seen = batch

/-- The rows that versions have for one part. -/
def layer (vs : List Version) (i : Nat) : List Slice := vs.filterMap (·.rows[i]?)

structure Whole (v : Version) : Prop where
  parts : v.rows ≠ []
  totals : ∀ r ∈ v.rows, r.content.partTotal = v.rows.length
  writer : ∀ r ∈ v.rows, r.batchId = v.writer
  seen : ∀ r ∈ v.rows, r.lastSeen = v.seen

/-- Stagings have written a version and confirmed it. -/
structure Logged (staged : List Staged) (fileId : Int) (chunkId : String) (v : Version) : Prop where
  written : ∃ e ∈ staged, e.fileId = fileId ∧ e.request.batchId = v.writer ∧ ∃ ids,
    Staging.GroupRows e.request fileId ids
      ⟨chunkId, ChunkGroup.partsOf e.request.result.chunks chunkId⟩ (v.rows.map (·.content))
  confirmed : ∃ e ∈ staged, e.fileId = fileId ∧ e.request.batchId = v.seen

theorem layer_append (vs ws : List Version) (i : Nat) : layer (vs ++ ws) i = layer vs i ++ layer ws i :=
  List.filterMap_append

theorem layer_snoc (vs : List Version) (v : Version) (i : Nat) :
    layer (vs ++ [v]) i = layer vs i ++ v.rows[i]?.toList := by
  rw [layer_append]
  cases row : v.rows[i]? <;> simp [layer, row]

theorem mem_layer {vs : List Version} {i : Nat} {r : Slice} :
    r ∈ layer vs i ↔ ∃ v ∈ vs, v.rows[i]? = some r := by
  simp [layer]

theorem isSeenIn_iff {v : Version} (whole : v.Whole) {r : Slice} (mem : r ∈ v.rows) {batch : String} :
    r.isSeenIn batch = true ↔ v.Holds batch := by
  simp [Slice.isSeenIn, Holds, whole.writer r mem, whole.seen r mem]

theorem logged_mono {staged more : List Staged} {fileId : Int} {chunkId : String} {v : Version}
    (logged : v.Logged staged fileId chunkId) (longer : staged ⊆ more) :
    v.Logged more fileId chunkId where
  written := by
    obtain ⟨e, mem, rest⟩ := logged.written
    exact ⟨e, longer mem, rest⟩
  confirmed := by
    obtain ⟨e, mem, rest⟩ := logged.confirmed
    exact ⟨e, longer mem, rest⟩

/-- A version after a batch has confirmed all its rows. -/
def confirmed (v : Version) (batch : String) (now : Instant) : Version :=
  ⟨v.writer, batch, v.rows.map (Store.confirmed batch now)⟩

theorem confirmed_contents (v : Version) (batch : String) (now : Instant) :
    (v.confirmed batch now).rows.map (·.content) = v.rows.map (·.content) := by
  simp [confirmed, Function.comp_def, Store.confirmed]

theorem confirmed_whole {v : Version} (whole : v.Whole) (batch : String) (now : Instant) :
    (v.confirmed batch now).Whole := by
  constructor
  · simpa [confirmed] using whole.parts
  · intro r mem
    obtain ⟨old, there, rfl⟩ := List.mem_map.1 mem
    simpa [confirmed, Store.confirmed] using whole.totals old there
  · intro r mem
    obtain ⟨old, there, rfl⟩ := List.mem_map.1 mem
    exact whole.writer old there
  · intro r mem
    obtain ⟨old, there, rfl⟩ := List.mem_map.1 mem
    rfl

/-- Removing the rows that a batch wrote removes whole versions. -/
theorem layer_filter {vs : List Version} (whole : ∀ v ∈ vs, v.Whole) (batch : String) (i : Nat) :
    (layer vs i).filter (·.batchId ≠ batch) = layer (vs.filter (·.writer ≠ batch)) i := by
  induction vs with
  | nil => rfl
  | cons v rest ih =>
    obtain ⟨own, others⟩ := List.forall_mem_cons.1 whole
    have ih := ih others
    unfold layer at ih ⊢
    cases row : v.rows[i]? with
    | none =>
      by_cases writer : v.writer = batch <;> simp_all
    | some r =>
      have same := own.writer r (List.mem_of_getElem? row)
      by_cases writer : v.writer = batch <;> simp_all

end Version

/-- The rows of a chunk are those of its versions, of which each batch holds one at most. -/
structure Versioned (staged : List Staged) (s : Store) (fileId : Int) (chunkId : String)
    (vs : List Version) : Prop where
  whole : ∀ v ∈ vs, v.Whole
  logged : ∀ v ∈ vs, v.Logged staged fileId chunkId
  rows : ∀ i : Nat, s.versions fileId chunkId i = Version.layer vs i
  below : ∀ i : Int, i < 0 → s.versions fileId chunkId i = []
  apart : vs.Pairwise fun v w => ∀ batch, ¬ (v.Holds batch ∧ w.Holds batch)

namespace Versioned

variable {staged : List Staged} {s t : Store} {fileId : Int} {chunkId : String} {vs : List Version}

theorem start (fileId : Int) (chunkId : String) : Versioned [] .empty fileId chunkId [] where
  whole := by simp
  logged := by simp
  rows := fun i => rfl
  below := fun i _ => rfl
  apart := List.Pairwise.nil

theorem keep {more : List Staged} (inv : Versioned staged s fileId chunkId vs)
    (longer : staged ⊆ more) (same : t.versions fileId chunkId = s.versions fileId chunkId) :
    Versioned more t fileId chunkId vs where
  whole := inv.whole
  logged v mem := Version.logged_mono (inv.logged v mem) longer
  rows i := by rw [same, inv.rows]
  below i less := by rw [same, inv.below i less]
  apart := inv.apart

theorem delete (inv : Versioned staged s fileId chunkId vs) (batch : String) :
    Versioned staged (s.deleteSlices batch).1 fileId chunkId (vs.filter (·.writer ≠ batch)) where
  whole v mem := inv.whole v (List.mem_filter.1 mem).1
  logged v mem := inv.logged v (List.mem_filter.1 mem).1
  rows i := by
    rw [Store.versions, Store.rowsAt_deleteSlices, ← Version.layer_filter inv.whole, ← inv.rows]
    rfl
  below i less := by
    rw [Store.versions, Store.rowsAt_deleteSlices, show s.rowsAt _ = [] from inv.below i less]
    rfl
  apart := inv.apart.filter _

/-- A chunk gets a newest version that no batch holds together with an older one. -/
theorem snoc {older : List Version} {v : Version} (whole : ∀ w ∈ older, w.Whole) (own : v.Whole)
    (logged : ∀ w ∈ older, w.Logged staged fileId chunkId) (own_logged : v.Logged staged fileId chunkId)
    (rows : ∀ i : Nat, t.versions fileId chunkId i = Version.layer older i ++ v.rows[i]?.toList)
    (below : ∀ i : Int, i < 0 → t.versions fileId chunkId i = [])
    (apart : older.Pairwise fun v w => ∀ batch, ¬ (v.Holds batch ∧ w.Holds batch))
    (alone : ∀ w ∈ older, ∀ batch, ¬ (w.Holds batch ∧ v.Holds batch)) :
    Versioned staged t fileId chunkId (older ++ [v]) where
  whole := List.forall_mem_append.2 ⟨whole, by simpa using own⟩
  logged := List.forall_mem_append.2 ⟨logged, by simpa using own_logged⟩
  rows i := (rows i).trans (Version.layer_snoc older v i).symm
  below := below
  apart := by
    refine List.pairwise_append.2 ⟨apart, List.pairwise_singleton _ _, ?_⟩
    intro w mem u last
    exact List.mem_singleton.1 last ▸ alone w mem

/-- What staging a result under a batch that no version holds makes of one of its chunks. -/
structure Restage (staged more : List Staged) (fileId : Int) (chunkId batch : String)
    (contents : List SliceContent) : Prop where
  parts : contents ≠ []
  totals : ∀ c ∈ contents, c.partTotal = contents.length
  longer : staged ⊆ more
  logged : ∃ e ∈ more, e.fileId = fileId ∧ e.request.batchId = batch ∧ ∃ ids,
    Staging.GroupRows e.request fileId ids
      ⟨chunkId, ChunkGroup.partsOf e.request.result.chunks chunkId⟩ contents

variable {more : List Staged} {batch : String} {contents : List SliceContent} {now : Instant}

/-- The version that holds the newest row of the first part holds the newest row of every part. -/
theorem newest_version (inv : Versioned staged s fileId chunkId vs)
    (again : Restage staged more fileId chunkId batch contents)
    (parts : ∀ i (h : i < contents.length), Confirmed batch now contents[i]
      (s.versions fileId chunkId i) (t.versions fileId chunkId i)) :
    ∃ older v, vs = older ++ [v] ∧ v.rows.map (·.content) = contents ∧
      ∀ (i : Nat) (h : i < v.rows.length), t.versions fileId chunkId i =
        Version.layer older i ++ [Store.confirmed batch now v.rows[i]] := by
  have some_part := List.length_pos_iff.2 again.parts
  rcases List.eq_nil_or_concat' vs with rfl | ⟨older, v, rfl⟩
  · have first := parts 0 some_part
    rw [inv.rows 0] at first
    obtain ⟨older, row, before, -⟩ := confirmed_inv first
    simp [Version.layer] at before
  · have whole := inv.whole v (by simp)
    have confirms (i : Nat) (h : i < contents.length) (here : i < v.rows.length) :
        v.rows[i].content = contents[i] ∧ t.versions fileId chunkId i =
          Version.layer older i ++ [Store.confirmed batch now v.rows[i]] := by
      have one := parts i h
      rw [inv.rows i, Version.layer_snoc, List.getElem?_eq_getElem here, Option.toList_some] at one
      obtain ⟨older', row, before, holds, after⟩ := confirmed_inv one
      obtain ⟨rfl, same⟩ := List.append_inj' before rfl
      obtain rfl := (List.cons.inj same).1
      exact ⟨holds, after⟩
    have some_row := List.length_pos_iff.2 whole.parts
    -- Both record their number of parts in the first one, and the first ones are the same.
    have length : v.rows.length = contents.length := by
      have mine := whole.totals v.rows[0] (List.getElem_mem some_row)
      have asked := again.totals contents[0] (List.getElem_mem some_part)
      rw [(confirms 0 some_part some_row).1, asked] at mine
      exact (Int.ofNat_inj.1 mine).symm
    refine ⟨older, v, rfl, ?_, fun i h => (confirms i (length ▸ h) h).2⟩
    refine List.ext_getElem (by simpa using length) fun i hi hc => ?_
    simp only [List.length_map] at hi
    simpa using (confirms i hc hi).1

theorem confirm (inv : Versioned staged s fileId chunkId vs)
    (again : Restage staged more fileId chunkId batch contents)
    (unheld : ∀ v ∈ vs, ¬ v.Holds batch)
    (parts : ∀ i (h : i < contents.length), Confirmed batch now contents[i]
      (s.versions fileId chunkId i) (t.versions fileId chunkId i))
    (others : ∀ i : Int, i < 0 ∨ contents.length ≤ i →
      t.versions fileId chunkId i = s.versions fileId chunkId i) :
    ∃ vs', Versioned more t fileId chunkId vs' := by
  obtain ⟨older, v, rfl, same, newest⟩ := newest_version inv again parts
  have length : v.rows.length = contents.length := by simpa using congrArg List.length same
  have logged := Version.logged_mono (inv.logged v (by simp)) again.longer
  obtain ⟨e, mem, file, by_batch, -⟩ := again.logged
  obtain ⟨apart, -, last⟩ := List.pairwise_append.1 inv.apart
  refine ⟨older ++ [v.confirmed batch now], snoc (fun w mem => inv.whole w (by simp [mem]))
    (Version.confirmed_whole (inv.whole v (by simp)) batch now)
    (fun w mem => Version.logged_mono (inv.logged w (by simp [mem])) again.longer) ?_ ?_ ?_ apart ?_⟩
  · refine ⟨?_, e, mem, file, by_batch⟩
    rw [Version.confirmed_contents]
    exact logged.written
  · intro i
    by_cases here : i < v.rows.length
    · rw [newest i here]
      simp [Version.confirmed, here]
    · rw [others i (Or.inr (by omega)), inv.rows i, Version.layer_snoc]
      simp [Version.confirmed, here]
  · intro i less
    rw [others i (Or.inl less), inv.below i less]
  · rintro w mem b ⟨held, writer | seen⟩
    · exact last w mem v (by simp) b ⟨held, Or.inl writer⟩
    · obtain rfl : batch = b := seen
      exact unheld w (by simp [mem]) held

/-- No row of the chunk was written by a batch that holds none of its versions. -/
theorem foreign_of_unheld (inv : Versioned staged s fileId chunkId vs)
    (unheld : ∀ v ∈ vs, ¬ v.Holds batch) (i : Nat) :
    ∀ r ∈ s.versions fileId chunkId i, r.batchId ≠ batch := by
  intro r mem own
  rw [inv.rows i] at mem
  obtain ⟨v, there, row⟩ := Version.mem_layer.1 mem
  have writer := (inv.whole v there).writer r (List.mem_of_getElem? row)
  exact unheld v there (Or.inl (writer.symm.trans own))

/-- The rows that are written make a version. -/
theorem written_version (again : Restage staged more fileId chunkId batch contents)
    (foreign : ∀ i : Nat, ∀ r ∈ s.versions fileId chunkId i, r.batchId ≠ batch)
    (parts : ∀ i (h : i < contents.length), Store.Written batch contents[i]
      (s.versions fileId chunkId i) (t.versions fileId chunkId i)) :
    ∃ v : Version, v.writer = batch ∧ v.seen = batch ∧ v.Whole ∧ v.rows.map (·.content) = contents ∧
      ∀ i : Nat, i < contents.length → t.versions fileId chunkId i =
        s.versions fileId chunkId i ++ v.rows[i]?.toList := by
  -- One new row for each part, since the batch has no version of the chunk.
  choose new put holds writer seen using fun i h => written_foreign (foreign i) (parts i h)
  let rows : List Slice := List.ofFn fun i : Fin contents.length => new i i.isLt
  have length : rows.length = contents.length := by simp [rows]
  have same : rows.map (·.content) = contents := by
    refine List.ext_getElem (by simp [rows]) fun i _ _ => ?_
    simp [rows, holds]
  have of_row {r : Slice} (mem : r ∈ rows) : ∃ i h, r = new i h := by
    obtain ⟨i, rfl⟩ := List.mem_ofFn.1 mem
    exact ⟨i, i.isLt, rfl⟩
  refine ⟨⟨batch, batch, rows⟩, rfl, rfl, ⟨?_, ?_, ?_, ?_⟩, same, ?_⟩
  · intro none
    have empty : rows = [] := none
    rw [empty] at same
    exact again.parts same.symm
  · intro r mem
    obtain ⟨i, h, rfl⟩ := of_row mem
    rw [holds, length]
    exact again.totals _ (List.getElem_mem h)
  · intro r mem
    obtain ⟨i, h, rfl⟩ := of_row mem
    exact writer i h
  · intro r mem
    obtain ⟨i, h, rfl⟩ := of_row mem
    exact seen i h
  · intro i h
    rw [put i h]
    simp [rows, h]

theorem rewrite (inv : Versioned staged s fileId chunkId vs)
    (again : Restage staged more fileId chunkId batch contents)
    (unheld : ∀ v ∈ vs, ¬ v.Holds batch)
    (parts : ∀ i (h : i < contents.length), Store.Written batch contents[i]
      (s.versions fileId chunkId i) (t.versions fileId chunkId i))
    (below : ∀ i : Int, i < 0 → t.versions fileId chunkId i = s.versions fileId chunkId i)
    (beyond : ∀ i : Int, contents.length ≤ i → t.versions fileId chunkId i =
      (s.versions fileId chunkId i).filter (·.batchId ≠ batch)) :
    ∃ vs', Versioned more t fileId chunkId vs' := by
  have foreign := foreign_of_unheld inv unheld
  obtain ⟨v, writer, seen, whole, same, put⟩ := written_version again foreign parts
  have length : v.rows.length = contents.length := by simpa using congrArg List.length same
  obtain ⟨e, mem, file, by_batch, ids, rows⟩ := again.logged
  refine ⟨vs ++ [v], snoc inv.whole whole
    (fun w mem => Version.logged_mono (inv.logged w mem) again.longer) ?_ ?_ ?_ inv.apart ?_⟩
  · exact ⟨⟨e, mem, file, by_batch.trans writer.symm, ids, same.symm ▸ rows⟩,
      e, mem, file, by_batch.trans seen.symm⟩
  · intro i
    by_cases here : i < contents.length
    · rw [put i here, inv.rows i]
    · have kept : (s.versions fileId chunkId i).filter (·.batchId ≠ batch) =
          s.versions fileId chunkId i :=
        List.filter_eq_self.2 fun r mem => decide_eq_true (foreign i r mem)
      rw [beyond i (by omega), kept, inv.rows i]
      simp [length, here]
  · intro i less
    rw [below i less, inv.below i less]
  · rintro w mem b ⟨held, own⟩
    have holder : b = batch := by simpa [Version.Holds, writer, seen, eq_comm] using own
    exact unheld w mem (holder ▸ held)

end Versioned

end SourceSlices
