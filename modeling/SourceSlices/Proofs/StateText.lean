import Mathlib.Data.List.Nodup
import SourceSlices.Proofs.InstantText
import SourceSlices.Proofs.ManifestText
import SourceSlices.Proofs.ForeignMembers

/-!
The recorded state of a source, read from what is written of it. Every field comes back as it is, but for
three kinds of values: counters beyond 64 bits, times that no text stands for, and doubles whose text is
read as another double.
-/
namespace SourceSlices

namespace Json

variable {α β : Type} {v w : Json}

/-- A value comes back from what is written of it exactly if it is good. -/
structure Restores (read : Json → Option α) (v : Json) (a : α) (good : Prop) : Prop where
  own : good → ReadsAs v v ∧ read v = some a
  back : ∀ {w}, ReadsAs v w → read w = some a → good

theorem restores_plain {read : Json → Option α} {a : α} (own : ReadsAs v v) (value : read v = some a) :
    Restores read v a True :=
  ⟨fun _ => ⟨own, value⟩, fun _ _ => trivial⟩

theorem nat?_nat {n : Nat} (small : n ≤ maxWord) : nat? (.int n) = some n := by
  have fits : 0 ≤ (n : Int) ∧ (n : Int) ≤ maxWord := by omega
  rw [nat?, if_pos fits, Int.toNat_natCast]

theorem restores_nat (n : Nat) : Restores nat? (.nat n) n (n ≤ maxWord) := by
  refine ⟨fun small => ⟨.int (read_nat small), nat?_nat small⟩, fun {w} _ value => ?_⟩
  cases w with
  | int i =>
    rw [nat?] at value
    split at value
    · rename_i fits
      cases value
      omega
    · cases value
  | _ => cases value

theorem restores_float (x : Float) : Restores float? (.float x) x (Echoes x) := by
  refine ⟨fun same => ⟨.float same, rfl⟩, fun {w} reads value => ?_⟩
  cases reads with
  | float own =>
    rcases read_writeFloat own with rfl | float
    · cases value
    · cases w with
      | float y =>
        cases value
        exact own
      | _ => cases float

/-- A map comes back if each of its values does. -/
theorem restores_map {read : Json → Option α} {write : α → Json} {good : α → Prop} {m : SortedMap α}
    (each : ∀ a ∈ m.values, Restores read (write a) a (good a)) :
    Restores (map? read) (ofMap write m) m (∀ a ∈ m.values, good a) := by
  refine ⟨fun all => ⟨.obj rfl (List.forall₂_same.2 fun v mem => ?_), ?_⟩, fun reads done a mem => ?_⟩
  · obtain ⟨e, listed, rfl⟩ := List.mem_map.1 mem
    obtain ⟨d, there, rfl⟩ := List.mem_map.1 listed
    have value := List.mem_map_of_mem (f := Prod.snd) there
    exact ((each d.2 value).own (all d.2 value)).1
  · have made : (m.entries.map fun e => (e.1, write e.2)).mapM
        (fun e : String × Json => (read e.2).map (e.1, ·)) = some m.entries := by
      rw [Staging.mapM_some_iff, List.map_map]
      refine List.map_congr_left fun e mem => ?_
      have value := List.mem_map_of_mem (f := Prod.snd) mem
      simp only [Function.comp, ((each e.2 value).own (all e.2 value)).2, Option.map_some]
    rw [ofMap, map?, made, Option.map_some]
    exact congrArg some (SortedMap.foldl_insert_entries m)
  · obtain ⟨e, there, rfl⟩ := List.mem_map.1 mem
    have known : m.find? e.1 = some e.2 := SortedMap.find?_eq_some_iff.2 there
    obtain ⟨b, w', found, own, value⟩ := find?_map_ofMap reads done known
    obtain rfl := Option.some.inj (known.symm.trans found)
    exact (each _ mem).back own value

theorem restores_strings (items : List String) : Restores (list? str?) (strings items) items True := by
  refine restores_plain (.arr (List.forall₂_same.2 fun v mem => ?_)) ?_
  · obtain ⟨s, -, rfl⟩ := List.mem_map.1 mem
    exact .str s
  · rw [strings, list?, Staging.mapM_some_iff, List.map_map]
    rfl

theorem restores_optStr (x : Option String) : Restores (optional? str?) (.optStr x) x True := by
  cases x with
  | none => exact restores_plain .null rfl
  | some s => exact restores_plain (.str s) rfl

/-- Members in any order set the fields they name. -/
theorem setMembers_chosen {fields chosen : List (RecordField α)} (known : ∀ f ∈ chosen, f ∈ fields)
    (distinct : (fields.map RecordField.name).Nodup) (once : (chosen.map RecordField.name).Nodup)
    {members : List (String × Json)} (names : members.map Prod.fst = chosen.map RecordField.name)
    (seen : List String) (new : ∀ k ∈ seen, k ∉ chosen.map RecordField.name) (a : α) :
    setMembers fields seen members a = setItems chosen (members.map Prod.snd) a := by
  induction chosen generalizing members seen a with
  | nil =>
    obtain rfl := List.map_eq_nil_iff.1 names
    rfl
  | cons f chosen ih =>
    obtain ⟨⟨k, v⟩, others, rfl, own, names'⟩ := List.map_eq_cons_iff.1 names
    obtain rfl : k = f.name := own
    obtain ⟨apart, once'⟩ := List.nodup_cons.1 once
    obtain ⟨mem, known'⟩ := List.forall_mem_cons.1 known
    have found : fields.find? (·.name == f.name) = some f := by
      cases there : fields.find? (·.name == f.name) with
      | none => exact absurd (beq_self_eq_true f.name) (List.find?_eq_none.1 there f mem)
      | some g =>
        have same : g.name = f.name := by simpa using List.find?_some there
        rw [List.inj_on_of_nodup_map distinct (List.mem_of_find?_eq_some there) mem same]
    have first : seen.contains f.name = false := by
      simpa using fun mem => new _ mem List.mem_cons_self
    have next := ih known' once' names' (f.name :: seen) (List.forall_mem_cons.2
      ⟨apart, fun k mem there => new k mem (List.mem_cons_of_mem _ there)⟩)
    simp only [setMembers, found, first, Bool.false_eq_true, if_false, List.map_cons, setItems, funext next]

theorem record?_given {fields chosen : List (RecordField α)} {members : List (String × Json)} (a : α)
    (known : chosen.Sublist fields) (distinct : (fields.map RecordField.name).Nodup)
    (names : members.map Prod.fst = chosen.map RecordField.name) :
    record? fields a (.obj members) = setItems chosen (members.map Prod.snd) a :=
  setMembers_chosen (fun _ mem => known.subset mem) distinct (distinct.sublist (known.map _)) names []
    (fun k mem => by cases mem) a

theorem record?_obj {fields : List (RecordField α)} {members : List (String × Json)} (a : α)
    (distinct : (fields.map RecordField.name).Nodup)
    (names : members.map Prod.fst = fields.map RecordField.name) :
    record? fields a (.obj members) = setItems fields (members.map Prod.snd) a :=
  record?_given a (.refl fields) distinct names

theorem depth_ofMap {write : α → Json} {n : Nat} (each : ∀ a, (write a).depth ≤ n) (m : SortedMap α) :
    (ofMap write m).depth ≤ n + 1 := by
  refine Nat.succ_le_succ (depthMembers_le.2 fun e mem => ?_)
  obtain ⟨d, -, rfl⟩ := List.mem_map.1 mem
  exact each d.2

theorem depth_strings (items : List String) : (strings items).depth ≤ 1 := by
  refine Nat.succ_le_succ (depthItems_le.2 fun v mem => ?_)
  obtain ⟨s, -, rfl⟩ := List.mem_map.1 mem
  exact Nat.zero_le _

theorem depth_optStr (x : Option String) : (optStr x).depth = 0 := by
  cases x <;> rfl

end Json

open Json

namespace RunMetrics

def counters (m : RunMetrics) : List Nat :=
  [m.filesDiscovered, m.filesParsed, m.filesReused, m.filesFailed, m.chunksEmitted, m.chunksReused,
    m.fallbacks, m.queueDepth, m.lockContentionEvents] ++ m.handlersInvoked.values

def doubles (m : RunMetrics) : List Float := m.lockWaitSeconds :: m.handlerRuntimeSeconds.values

/-- Metrics that come back from their text. -/
structure Restorable (m : RunMetrics) : Prop where
  counters : ∀ n ∈ m.counters, n ≤ maxWord
  doubles : ∀ x ∈ m.doubles, Echoes x

theorem setItems_iff {m m' : RunMetrics} (w₁ w₂ w₃ w₄ w₅ w₆ w₇ w₈ w₉ w₁₀ w₁₁ w₁₂ : Json) :
    setItems fields [w₁, w₂, w₃, w₄, w₅, w₆, w₇, w₈, w₉, w₁₀, w₁₁, w₁₂] m' = some m ↔
      nat? w₁ = some m.filesDiscovered ∧ nat? w₂ = some m.filesParsed ∧ nat? w₃ = some m.filesReused ∧
      nat? w₄ = some m.filesFailed ∧ nat? w₅ = some m.chunksEmitted ∧ nat? w₆ = some m.chunksReused ∧
      nat? w₇ = some m.fallbacks ∧ nat? w₈ = some m.queueDepth ∧
      map? nat? w₉ = some m.handlersInvoked ∧ map? float? w₁₀ = some m.handlerRuntimeSeconds ∧
      float? w₁₁ = some m.lockWaitSeconds ∧ nat? w₁₂ = some m.lockContentionEvents := by
  simp only [fields, setItems, RecordField.of, Option.bind_eq_some_iff, Option.map_eq_some_iff,
    exists_exists_and_eq_and]
  constructor
  · rintro ⟨_, h₁, _, h₂, _, h₃, _, h₄, _, h₅, _, h₆, _, h₇, _, h₈, _, h₉, _, h₁₀, _, h₁₁, _, h₁₂, made⟩
    cases made
    exact ⟨h₁, h₂, h₃, h₄, h₅, h₆, h₇, h₈, h₉, h₁₀, h₁₁, h₁₂⟩
  · rintro ⟨h₁, h₂, h₃, h₄, h₅, h₆, h₇, h₈, h₉, h₁₀, h₁₁, h₁₂⟩
    exact ⟨_, h₁, _, h₂, _, h₃, _, h₄, _, h₅, _, h₆, _, h₇, _, h₈, _, h₉, _, h₁₀, _, h₁₁, _, h₁₂, rfl⟩

theorem distinct_fields : (fields.map RecordField.name).Nodup := by decide

theorem restores (m : RunMetrics) : Restores ofJson? m.toJson m m.Restorable := by
  have handlers : Restores (map? nat?) (ofMap .nat m.handlersInvoked) m.handlersInvoked _ :=
    restores_map fun n _ => restores_nat n
  have runtimes : Restores (map? float?) (ofMap .float m.handlerRuntimeSeconds) m.handlerRuntimeSeconds _ :=
    restores_map fun x _ => restores_float x
  have wait := restores_float m.lockWaitSeconds
  constructor
  · rintro ⟨counters, doubles⟩
    simp only [RunMetrics.counters, RunMetrics.doubles, List.cons_append, List.nil_append,
      List.forall_mem_cons] at counters doubles
    obtain ⟨c₁, c₂, c₃, c₄, c₅, c₆, c₇, c₈, c₉, called⟩ := counters
    obtain ⟨waited, ran⟩ := doubles
    have nat {n : Nat} (small : n ≤ maxWord) := (restores_nat n).own small
    refine ⟨.obj rfl ?_, (record?_obj _ distinct_fields rfl).trans ((setItems_iff ..).2 ?_)⟩
    · exact .cons (nat c₁).1 <| .cons (nat c₂).1 <| .cons (nat c₃).1 <| .cons (nat c₄).1 <|
        .cons (nat c₅).1 <| .cons (nat c₆).1 <| .cons (nat c₇).1 <| .cons (nat c₈).1 <|
        .cons (handlers.own called).1 <| .cons (runtimes.own ran).1 <| .cons (wait.own waited).1 <|
        .cons (nat c₉).1 .nil
    · exact ⟨(nat c₁).2, (nat c₂).2, (nat c₃).2, (nat c₄).2, (nat c₅).2, (nat c₆).2, (nat c₇).2,
        (nat c₈).2, (handlers.own called).2, (runtimes.own ran).2, (wait.own waited).2, (nat c₉).2⟩
  · intro w reads done
    cases reads with
    | @obj _ members keys each =>
      rw [ofJson?, record?_obj _ distinct_fields keys] at done
      generalize members.map Prod.snd = ws at each done
      obtain _ | ⟨r₁, _ | ⟨r₂, _ | ⟨r₃, _ | ⟨r₄, _ | ⟨r₅, _ | ⟨r₆,
        _ | ⟨r₇, _ | ⟨r₈, _ | ⟨r₉, _ | ⟨r₁₀, _ | ⟨r₁₁, _ | ⟨r₁₂, _ | _⟩⟩⟩⟩⟩⟩⟩⟩⟩⟩⟩⟩ := each
      obtain ⟨h₁, h₂, h₃, h₄, h₅, h₆, h₇, h₈, h₉, h₁₀, h₁₁, h₁₂⟩ := (setItems_iff ..).1 done
      have nat {n : Nat} {w : Json} (reads : ReadsAs (.nat n) w) (value : nat? w = some n) :=
        (restores_nat n).back reads value
      constructor
      · simp only [RunMetrics.counters, List.cons_append, List.nil_append, List.forall_mem_cons]
        exact ⟨nat r₁ h₁, nat r₂ h₂, nat r₃ h₃, nat r₄ h₄, nat r₅ h₅, nat r₆ h₆, nat r₇ h₇, nat r₈ h₈,
          nat r₁₂ h₁₂, handlers.back r₉ h₉⟩
      · exact List.forall_mem_cons.2 ⟨wait.back r₁₁ h₁₁, runtimes.back r₁₀ h₁₀⟩

theorem depth_toJson (m : RunMetrics) : m.toJson.depth ≤ 2 := by
  refine Nat.succ_le_succ (depthMembers_le.2 ?_)
  simp only [List.forall_mem_cons]
  exact ⟨Nat.zero_le _, Nat.zero_le _, Nat.zero_le _, Nat.zero_le _, Nat.zero_le _, Nat.zero_le _,
    Nat.zero_le _, Nat.zero_le _, depth_ofMap (fun _ => Nat.zero_le 0) _,
    depth_ofMap (fun _ => Nat.zero_le 0) _, Nat.zero_le _,
    Nat.zero_le _, fun _ none => by cases none⟩

end RunMetrics

theorem restores_instant (x : Option Instant) :
    Restores (optional? Instant.ofJson?) (.ofOption Instant.toJson x) x (∀ t ∈ x, t.Printable) := by
  cases x with
  | none => exact ⟨fun _ => ⟨.null, rfl⟩, fun _ _ t none => by cases none⟩
  | some t =>
    refine ⟨fun printable => ⟨.str _, ?_⟩, fun reads value u same => ?_⟩
    · show (Instant.parse? t.text).map some = _
      rw [Instant.parse?_text (printable t rfl), Option.map_some]
    · obtain rfl := Option.some.inj same
      change ReadsAs (.str t.text) _ at reads
      generalize t.text = text at reads
      cases reads
      obtain ⟨v, parsed, same⟩ : ∃ v, Instant.parse? text = some v ∧ some v = some t :=
        Option.map_eq_some_iff.1 value
      obtain rfl := Option.some.inj same
      exact Instant.printable_of_parse parsed

theorem HealthStatus.ofName_name (s : HealthStatus) : ofName? s.name = some s := by
  cases s <;> simp [ofName?, name]

theorem restores_status (s : HealthStatus) : Restores HealthStatus.ofJson? s.toJson s True :=
  restores_plain (.str s.name) s.ofName_name

namespace RunState

/-- A state that comes back from its text. -/
structure Restorable (s : RunState) : Prop where
  metrics : s.metrics.Restorable
  started : ∀ t ∈ s.lastRunStartedAt, t.Printable
  completed : ∀ t ∈ s.lastRunCompletedAt, t.Printable

theorem setItems_iff {s s' : RunState} (w₁ w₂ w₃ w₄ w₅ w₆ w₇ w₈ w₉ w₁₀ w₁₁ : Json) :
    setItems fields [w₁, w₂, w₃, w₄, w₅, w₆, w₇, w₈, w₉, w₁₀, w₁₁] s' = some s ↔
      bool? w₁ = some s.enabled ∧ optional? str? w₂ = some s.lastBatchId ∧
      optional? Instant.ofJson? w₃ = some s.lastRunStartedAt ∧
      optional? Instant.ofJson? w₄ = some s.lastRunCompletedAt ∧
      HealthStatus.ofJson? w₅ = some s.lastRunStatus ∧ optional? str? w₆ = some s.lastRunSummary ∧
      list? str? w₇ = some s.lastRunWarnings ∧ list? str? w₈ = some s.lastRunErrors ∧
      list? str? w₉ = some s.lastRunNotes ∧ map? str? w₁₀ = some s.handlerVersions ∧
      RunMetrics.ofJson? w₁₁ = some s.metrics := by
  simp only [fields, setItems, RecordField.of, Option.bind_eq_some_iff, Option.map_eq_some_iff,
    exists_exists_and_eq_and]
  constructor
  · rintro ⟨_, h₁, _, h₂, _, h₃, _, h₄, _, h₅, _, h₆, _, h₇, _, h₈, _, h₉, _, h₁₀, _, h₁₁, made⟩
    cases made
    exact ⟨h₁, h₂, h₃, h₄, h₅, h₆, h₇, h₈, h₉, h₁₀, h₁₁⟩
  · rintro ⟨h₁, h₂, h₃, h₄, h₅, h₆, h₇, h₈, h₉, h₁₀, h₁₁⟩
    exact ⟨_, h₁, _, h₂, _, h₃, _, h₄, _, h₅, _, h₆, _, h₇, _, h₈, _, h₉, _, h₁₀, _, h₁₁, rfl⟩

theorem distinct_fields : (fields.map RecordField.name).Nodup := by decide

theorem restores (s : RunState) : Restores ofJson? s.toJson s s.Restorable := by
  have enabled : Restores bool? (.bool s.enabled) s.enabled True := restores_plain (.bool _) rfl
  have text (x : Option String) := (restores_optStr x).own trivial
  have lines (items : List String) := (restores_strings items).own trivial
  have each : Restores (map? str?) (ofMap .str s.handlerVersions) s.handlerVersions _ :=
    restores_map fun x _ => restores_plain (.str x) rfl
  have versions := each.own fun _ _ => trivial
  have status := (restores_status s.lastRunStatus).own trivial
  have metrics := s.metrics.restores
  have started := restores_instant s.lastRunStartedAt
  have completed := restores_instant s.lastRunCompletedAt
  constructor
  · intro good
    have m := metrics.own good.metrics
    have t₁ := started.own good.started
    have t₂ := completed.own good.completed
    refine ⟨.obj rfl ?_, (record?_obj _ distinct_fields rfl).trans ((setItems_iff ..).2 ?_)⟩
    · exact .cons (.bool _) <| .cons (text _).1 <| .cons t₁.1 <| .cons t₂.1 <| .cons status.1 <|
        .cons (text _).1 <| .cons (lines _).1 <| .cons (lines _).1 <| .cons (lines _).1 <|
        .cons versions.1 <| .cons m.1 .nil
    · exact ⟨rfl, (text _).2, t₁.2, t₂.2, status.2, (text _).2, (lines _).2, (lines _).2, (lines _).2,
        versions.2, m.2⟩
  · intro w reads done
    cases reads with
    | @obj _ members keys each =>
      rw [ofJson?, record?_obj _ distinct_fields keys] at done
      generalize members.map Prod.snd = ws at each done
      obtain _ | ⟨r₁, _ | ⟨r₂, _ | ⟨r₃, _ | ⟨r₄, _ | ⟨r₅, _ | ⟨r₆,
        _ | ⟨r₇, _ | ⟨r₈, _ | ⟨r₉, _ | ⟨r₁₀, _ | ⟨r₁₁, _ | _⟩⟩⟩⟩⟩⟩⟩⟩⟩⟩⟩ := each
      obtain ⟨-, -, h₃, h₄, -, -, -, -, -, -, h₁₁⟩ := (setItems_iff ..).1 done
      exact ⟨metrics.back r₁₁ h₁₁, started.back r₃ h₃, completed.back r₄ h₄⟩

theorem depth_toJson (s : RunState) : s.toJson.depth ≤ 3 := by
  have lines (items : List String) : (strings items).depth ≤ 2 := Nat.le_succ_of_le (depth_strings items)
  have versions : (ofMap Json.str s.handlerVersions).depth ≤ 2 :=
    Nat.le_succ_of_le (depth_ofMap (fun _ => Nat.zero_le 0) _)
  have text (x : Option String) : (optStr x).depth ≤ 2 := depth_optStr x ▸ Nat.zero_le 2
  have time (x : Option Instant) : (ofOption Instant.toJson x).depth ≤ 2 := by
    cases x <;> exact Nat.zero_le _
  refine Nat.succ_le_succ (depthMembers_le.2 ?_)
  simp only [List.forall_mem_cons]
  exact ⟨Nat.zero_le _, text _, time _, time _, Nat.zero_le _, text _, lines _, lines _, lines _, versions,
    s.metrics.depth_toJson, fun _ none => by cases none⟩

end RunState

end SourceSlices
