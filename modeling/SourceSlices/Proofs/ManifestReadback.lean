import SourceSlices.Proofs.StateText

/-!
A manifest that is read from what was written of it. What others have put into it comes back as it is if
its numbers do, and then the whole manifest comes back exactly if all states in it do. Members of others
that come from a text are in the order of their keys and not nested too deep, so that they stay readable.
-/
namespace SourceSlices

open Json

variable {w : Json}

namespace SourceEntry

variable {e : SourceEntry} {n : Nat}

/-- An entry that can be taken apart again. -/
abbrev Settled (n : Nat) (e : SourceEntry) : Prop := Foreign stateKey n e.others

theorem toJson_takes (settled : e.Settled n) :
    takeMember? stateKey e.toJson = some (e.state.map RunState.toJson, e.others) :=
  takeMember_withMember_own settled _

theorem restorable_of_ofJson {s : RunState} {others : SortedMap Json}
    (reads : ReadsAs (withMember stateKey (some s.toJson) others) w) (done : ofJson? w = some e)
    (state : e.state = some s) : s.Restorable := by
  rw [ofJson?, Option.bind_eq_bind, Option.bind_eq_some_iff] at done
  obtain ⟨⟨found, others⟩, taken, done⟩ := done
  obtain ⟨v, rfl, own⟩ := takeMember_withMember reads taken
  obtain ⟨read, value, made⟩ := Option.bind_eq_some_iff.1 done
  obtain rfl := Option.some.inj made
  clear reads
  cases own with
  | obj keys each =>
    obtain ⟨s', made, same⟩ := Option.map_eq_some_iff.1 value
    obtain rfl := Option.some.inj (same.trans state)
    exact s'.restores.back (.obj keys each) made

theorem restores (settled : e.Settled n) (echo : ∀ v ∈ e.others.values, ReadsAs v v) :
    Restores ofJson? e.toJson e (∀ s ∈ e.state, s.Restorable) := by
  constructor
  · intro good
    refine ⟨readsAs_withMember (fun v mem => ?_) echo, ?_⟩
    · obtain ⟨s, there, rfl⟩ := Option.map_eq_some_iff.1 mem
      exact (s.restores.own (good s there)).1
    · rw [ofJson?, toJson_takes settled]
      obtain ⟨state, others⟩ := e
      cases state with
      | none => rfl
      | some s =>
        have value : optional? RunState.ofJson? s.toJson = some (some s) := by
          change (RunState.ofJson? s.toJson).map some = _
          rw [(s.restores.own (good s rfl)).2, Option.map_some]
        simp only [bind, Option.bind_some, Option.map_some, value]
  · intro w reads done s state
    have state' : e.state = some s := state
    rw [toJson, state', Option.map_some] at reads
    exact restorable_of_ofJson reads done state'

theorem settled_of_ofJson (deep : w.depth ≤ n + 1) (done : ofJson? w = some e) : e.Settled n := by
  rw [ofJson?, Option.bind_eq_bind, Option.bind_eq_some_iff] at done
  obtain ⟨⟨found, others⟩, taken, done⟩ := done
  have foreign := (foreign_of_taken taken deep).1
  cases found with
  | none =>
    obtain rfl := Option.some.inj done
    exact foreign
  | some v =>
    obtain ⟨state, -, made⟩ := Option.bind_eq_some_iff.1 done
    obtain rfl := Option.some.inj made
    exact foreign

theorem depth_toJson (settled : e.Settled n) (room : 3 ≤ n) : e.toJson.depth ≤ n + 1 := by
  refine depth_withMember settled fun v mem => ?_
  obtain ⟨s, -, rfl⟩ := Option.map_eq_some_iff.1 mem
  exact Nat.le_trans s.depth_toJson room

end SourceEntry

namespace Manifest

variable {m m' : Manifest} {source : String}

/-- A manifest that can be taken apart again, and whose text can be read. -/
structure Settled (m : Manifest) : Prop where
  others : Foreign sourcesKey 126 m.others
  entries : ∀ e ∈ m.sources.values, e.Settled 124

/-- What others have put into it is read as it was written. -/
structure Echoes (m : Manifest) : Prop where
  others : ∀ v ∈ m.others.values, ReadsAs v v
  entries : ∀ e ∈ m.sources.values, ∀ v ∈ e.others.values, ReadsAs v v

/-- All states come back from their text. -/
def Restorable (m : Manifest) : Prop := ∀ e ∈ m.sources.values, ∀ s ∈ e.state, s.Restorable

theorem settled_empty : ({} : Manifest).Settled := ⟨foreign_empty _ _, fun _ mem => by cases mem⟩

theorem settled_of_ofJson (deep : w.depth ≤ maxDepth) (done : ofJson? w = some m) : m.Settled := by
  rw [ofJson?, Option.bind_eq_bind, Option.bind_eq_some_iff] at done
  obtain ⟨⟨found, others⟩, taken, done⟩ := done
  obtain ⟨foreign, within⟩ := foreign_of_taken taken deep
  cases found with
  | none =>
    obtain rfl := Option.some.inj done
    exact ⟨foreign, fun e mem => by cases mem⟩
  | some v =>
    obtain ⟨sources, value, made⟩ := Option.bind_eq_some_iff.1 done
    obtain rfl := Option.some.inj made
    refine ⟨foreign, fun e mem => ?_⟩
    have deep := within v rfl
    cases v with
    | obj members =>
      obtain ⟨made, listed, rfl⟩ := Option.map_eq_some_iff.1 value
      obtain ⟨d, there, rfl⟩ := List.mem_map.1 mem
      have kept := List.mem_map_of_mem (f := some) (SortedMap.mem_ofList there)
      rw [← Staging.mapM_some_iff.1 listed] at kept
      obtain ⟨x, own, same⟩ := List.mem_map.1 kept
      obtain ⟨e, read, rfl⟩ := Option.map_eq_some_iff.1 same
      exact SourceEntry.settled_of_ofJson (depthMembers_le.1 (Nat.le_of_succ_le_succ deep) x own) read
    | _ => cases value

theorem settled_of_ofText {text : String} (done : ofText text = .ok m) : m.Settled := by
  unfold ofText at done
  split at done
  · cases done
    exact settled_empty
  · split at done
    · cases done
    · rename_i read
      split at done
      · rename_i made
        cases done
        exact settled_of_ofJson (depth_read read) made
      · cases done

theorem settled_of_load {t : FileTree} {path : String} (done : load t path = .ok m) : m.Settled := by
  unfold load at done
  split at done
  · cases done
    exact settled_empty
  · cases done
  · split at done
    · exact settled_of_ofText done
    · cases done

theorem depth_toJson (settled : m.Settled) : m.toJson.depth ≤ maxDepth := by
  refine depth_withMember settled.others fun v mem => ?_
  obtain rfl := Option.some.inj mem
  refine Nat.succ_le_succ (depthMembers_le.2 fun e listed => ?_)
  obtain ⟨d, there, rfl⟩ := List.mem_map.1 listed
  exact SourceEntry.depth_toJson (settled.entries d.2 (List.mem_map_of_mem there)) (by decide)

theorem restores (settled : m.Settled) (echoes : m.Echoes) : Restores ofJson? m.toJson m m.Restorable := by
  have sources : Restores (map? SourceEntry.ofJson?) (ofMap SourceEntry.toJson m.sources) m.sources _ :=
    restores_map fun e mem => SourceEntry.restores (settled.entries e mem) (echoes.entries e mem)
  constructor
  · intro good
    refine ⟨readsAs_withMember (fun v mem => ?_) echoes.others, ?_⟩
    · obtain rfl := Option.some.inj mem
      exact (sources.own good).1
    · rw [ofJson?, toJson, takeMember_withMember_own settled.others]
      simp only [bind, Option.bind_some, (sources.own good).2]
  · intro w reads done
    rw [ofJson?, Option.bind_eq_bind, Option.bind_eq_some_iff] at done
    obtain ⟨⟨found, others⟩, taken, done⟩ := done
    obtain ⟨v, rfl, reads⟩ := takeMember_withMember reads taken
    obtain ⟨own, value, made⟩ := Option.bind_eq_some_iff.1 done
    cases made
    exact sources.back reads value

theorem ofText_text_iff (settled : m.Settled) (echoes : m.Echoes) :
    ofText m.text = .ok m ↔ m.Restorable := by
  have restores := restores settled echoes
  constructor
  · intro done
    obtain ⟨w, read, made⟩ := ofText_text_ok_iff.1 done
    exact restores.back (read_pretty read) made
  · intro good
    obtain ⟨reads, made⟩ := restores.own good
    exact ofText_text_ok_iff.2 ⟨m.toJson, (read_pretty_iff (depth_toJson settled)).2 reads, made⟩

theorem restorable_of_state {s : RunState} (known : m.state? source = some s) (done : ofText m.text = .ok m')
    (same : m'.state? source = some s) : s.Restorable := by
  obtain ⟨w, read, made⟩ := ofText_text_ok_iff.1 done
  rw [ofJson?, Option.bind_eq_bind, Option.bind_eq_some_iff] at made
  obtain ⟨⟨found, others⟩, taken, made⟩ := made
  obtain ⟨v, rfl, reads⟩ := takeMember_withMember (read_pretty read) taken
  obtain ⟨sources, value, made⟩ := Option.bind_eq_some_iff.1 made
  obtain rfl := Option.some.inj made
  obtain ⟨e, there, state⟩ := Option.bind_eq_some_iff.1 known
  obtain ⟨e', w', here, own, entry⟩ := find?_map_ofMap reads value there
  rw [state?, here, Option.bind_some] at same
  rw [SourceEntry.toJson, state, Option.map_some] at own
  exact SourceEntry.restorable_of_ofJson own entry same

/-! ### Changing one source -/

theorem values_insert {α : Type} {s : SortedMap α} {key : String} {a b : α}
    (mem : b ∈ (s.insert key a).values) : b = a ∨ b ∈ s.values := by
  obtain ⟨e, there, rfl⟩ := List.mem_map.1 mem
  rcases SortedMap.mem_insertEntry there with rfl | old
  · exact .inl rfl
  · exact .inr (List.mem_map_of_mem old)

/-- The entry that is changed, or a new one. -/
theorem entry_mem (m : Manifest) (source : String) :
    (m.sources.find? source).getD {} = {} ∨ (m.sources.find? source).getD {} ∈ m.sources.values := by
  cases found : m.sources.find? source with
  | none => exact .inl rfl
  | some e => exact .inr (List.mem_map_of_mem (SortedMap.find?_eq_some_iff.1 found))

theorem settled_update (settled : m.Settled) (source : String) (change : RunState → RunState) :
    (m.update source change).1.Settled := by
  refine ⟨settled.others, fun e mem => ?_⟩
  rcases values_insert mem with rfl | old
  · rcases m.entry_mem source with new | there
    · rw [SourceEntry.Settled, new]
      exact foreign_empty _ _
    · have own : SourceEntry.Settled 124 ((m.sources.find? source).getD {}) := settled.entries _ there
      exact own
  · exact settled.entries e old

theorem echoes_update (echoes : m.Echoes) (source : String) (change : RunState → RunState) :
    (m.update source change).1.Echoes := by
  refine ⟨echoes.others, fun e mem => ?_⟩
  rcases values_insert mem with rfl | old
  · rcases m.entry_mem source with new | there
    · intro v listed
      rw [new] at listed
      cases listed
    · have own : ∀ v ∈ ((m.sources.find? source).getD {}).others.values, ReadsAs v v :=
        echoes.entries _ there
      exact own
  · exact echoes.entries e old

end Manifest

end SourceSlices
