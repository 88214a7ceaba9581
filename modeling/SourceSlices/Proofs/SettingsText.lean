import SourceSlices.Config.Load
import SourceSlices.Proofs.StateText

/-!
Settings, read from what is written of them. Whatever they have been read from, their counts have 64 bits,
their caps are above zero and no default handler is missing, so that all fields come back as they are but
for the two doubles, which are read as they are written.
-/
namespace SourceSlices

/-! ### What is read into a record -/

namespace Json

variable {α : Type} {P : α → Prop} {fields : List (RecordField α)} {a b : α} {v : Json}

/-- A property that no value of a field takes away. -/
def Kept (P : α → Prop) (f : RecordField α) : Prop := ∀ v a b, f.set v a = some b → P a → P b

theorem kept_of {β : Type} {name : String} {read : Json → Option β} {put : β → α → α}
    (each : ∀ v x a, read v = some x → P a → P (put x a)) : Kept P (.of name read put) := by
  intro v a b done start
  obtain ⟨x, value, rfl⟩ := Option.map_eq_some_iff.1 done
  exact each v x a value start

theorem setMembers_kept (kept : ∀ f ∈ fields, Kept P f) {seen : List String} {members : List (String × Json)}
    (done : setMembers fields seen members a = some b) (start : P a) : P b := by
  induction members generalizing seen a with
  | nil =>
    cases done
    exact start
  | cons e rest ih =>
    rw [setMembers] at done
    split at done
    · exact ih done start
    · rename_i f found
      split at done
      · cases done
      · obtain ⟨c, set, more⟩ := Option.bind_eq_some_iff.1 done
        exact ih more (kept f (List.mem_of_find?_eq_some found) _ _ _ set start)

theorem setItems_kept (kept : ∀ f ∈ fields, Kept P f) {items : List Json}
    (done : setItems fields items a = some b) (start : P a) : P b := by
  induction fields generalizing items a with
  | nil =>
    cases items with
    | nil =>
      cases done
      exact start
    | cons v rest => cases done
  | cons f fields ih =>
    obtain ⟨own, others⟩ := List.forall_mem_cons.1 kept
    cases items with
    | nil =>
      cases done
      exact start
    | cons v rest =>
      obtain ⟨c, set, more⟩ := Option.bind_eq_some_iff.1 done
      exact ih others more (own _ _ _ set start)

/-- What holds of the defaults and is kept by each field holds of every record that is read. -/
theorem record?_kept (kept : ∀ f ∈ fields, Kept P f) (start : P a) (done : record? fields a v = some b) :
    P b := by
  cases v with
  | obj members => exact setMembers_kept kept done start
  | arr items => exact setItems_kept kept done start
  | _ => cases done

theorem setItems_append {others : List (RecordField α)} {items more : List Json}
    (same : fields.length = items.length) (a : α) :
    setItems (fields ++ others) (items ++ more) a =
      (setItems fields items a).bind (setItems others more) := by
  induction fields generalizing items a with
  | nil =>
    obtain rfl := List.length_eq_zero_iff.1 same.symm
    rfl
  | cons f fields ih =>
    cases items with
    | nil => cases same
    | cons w items =>
      simp only [List.cons_append, setItems, Option.bind_assoc]
      exact Option.bind_congr fun b _ => ih (Nat.succ.inj same) b

/-- A field can be left out if nothing else changes it and its value says no more than the default. -/
theorem setItems_skip {f : RecordField α} {others : List (RecordField α)} {items more : List Json}
    (kept : ∀ g ∈ fields, Kept P g) (start : P a) (idle : ∀ b, P b → f.set v b = some b)
    (same : fields.length = items.length) :
    setItems (fields ++ f :: others) (items ++ v :: more) a =
      setItems (fields ++ others) (items ++ more) a := by
  rw [setItems_append same, setItems_append same]
  refine Option.bind_congr fun b done => ?_
  rw [setItems, idle b (setItems_kept kept done start), Option.bind_some]

theorem nat?_le {n : Nat} (done : nat? v = some n) : n ≤ maxWord := by
  cases v with
  | int i =>
    rw [nat?] at done
    split at done
    · rename_i fits
      cases done
      omega
    · cases done
  | _ => cases done

theorem map?_values {read : Json → Option α} {m : SortedMap α} (done : map? read v = some m) :
    ∀ a ∈ m.values, ∃ w, read w = some a := by
  intro a mem
  cases v with
  | obj members =>
    obtain ⟨entries, listed, rfl⟩ := Option.map_eq_some_iff.1 done
    obtain ⟨e, there, rfl⟩ := List.mem_map.1 mem
    have own := List.mem_map_of_mem (f := some) (SortedMap.mem_ofList there)
    rw [← Staging.mapM_some_iff.1 listed] at own
    obtain ⟨x, -, same⟩ := List.mem_map.1 own
    obtain ⟨b, value, rfl⟩ := Option.map_eq_some_iff.1 same
    exact ⟨x.2, value⟩
  | _ => cases done

end Json

open Json

/-! ### Settings that are read -/

/-- A cap that can be written. -/
def TokenLimit.Valid : TokenLimit → Prop
  | .auto => True
  | .limit n => 0 < n ∧ n ≤ maxWord

def HandlerConfig.Valid (h : HandlerConfig) : Prop := ∀ l ∈ h.maxTokens, l.Valid

structure HealthConfig.Valid (h : HealthConfig) : Prop where
  warning : h.lockContentionWarning ≤ maxWord
  error : h.lockContentionError ≤ maxWord

namespace Config

/-- Counts of 64 bits, and caps above zero. -/
structure Valid (c : Config) : Prop where
  limit : c.generalMaxTokens.Valid
  concurrency : c.maxConcurrency ≤ maxWord
  delegation : c.maxDelegationDepth ≤ maxWord
  handlers : ∀ h ∈ c.handlers.values, h.Valid
  health : c.health.Valid

/-- No default handler is missing. -/
def Complete (c : Config) : Prop := ∀ name ∈ handlerNames, c.handlers.contains name = true

variable {c c' : Config} {v w : Json} {isUnit : Json → Bool}

theorem tokenLimit?_valid {l : TokenLimit} (done : tokenLimit? v = some l) : l.Valid := by
  unfold tokenLimit? at done
  split at done
  · split at done
    · cases done
      trivial
    · cases done
  · split at done
    · rename_i n value
      split at done
      · cases done
      · rename_i positive
        cases done
        exact ⟨Nat.pos_of_ne_zero positive, nat?_le value⟩
    · cases done

theorem optional?_some {α : Type} {read : Json → Option α} {x : Option α} (done : optional? read v = some x)
    {a : α} (mem : a ∈ x) : read v = some a := by
  cases v with
  | null =>
    cases done
    cases mem
  | _ =>
    obtain ⟨b, value, rfl⟩ := Option.map_eq_some_iff.1 done
    cases mem
    exact value

theorem handlerConfig_valid_default : HandlerConfig.Valid {} := fun _ none => by cases none

theorem handlerConfig_valid {h : HandlerConfig} (done : record? handlerFields {} v = some h) : h.Valid := by
  refine record?_kept (P := HandlerConfig.Valid) ?_ handlerConfig_valid_default done
  simp only [handlerFields, List.forall_mem_cons]
  refine ⟨kept_of fun _ _ _ _ valid => valid, kept_of fun v limit h value _ => ?_,
    fun _ none => by cases none⟩
  intro l mem
  exact tokenLimit?_valid (optional?_some value mem)

theorem healthConfig_valid {h : HealthConfig} (done : record? healthFields {} v = some h) : h.Valid := by
  refine record?_kept (P := HealthConfig.Valid) ?_ ⟨by decide, by decide⟩ done
  simp only [healthFields, List.forall_mem_cons]
  refine ⟨kept_of fun _ _ _ _ valid => ⟨valid.warning, valid.error⟩,
    kept_of fun _ _ _ _ valid => ⟨valid.warning, valid.error⟩,
    kept_of fun _ _ _ value valid => ⟨nat?_le value, valid.error⟩,
    kept_of fun _ _ _ value valid => ⟨valid.warning, nat?_le value⟩, fun _ none => by cases none⟩

theorem contains_iff {α : Type} {m : SortedMap α} {key : String} :
    m.contains key = true ↔ ∃ a, m.find? key = some a := by
  simp only [SortedMap.contains, SortedMap.find?_eq_some_iff, List.any_eq_true, beq_iff_eq]
  constructor
  · rintro ⟨⟨key, a⟩, mem, rfl⟩
    exact ⟨a, mem⟩
  · rintro ⟨a, mem⟩
    exact ⟨_, mem, rfl⟩

/-- Puts default handlers in where they are missing. -/
def filled (m : SortedMap HandlerConfig) : SortedMap HandlerConfig :=
  handlerNames.foldl (fun m name => if m.contains name then m else m.insert name {}) m

theorem fillHandlers_eq (c : Config) : c.fillHandlers = { c with handlers := filled c.handlers } := by
  simp only [fillHandlers, filled]

theorem find?_filled (m : SortedMap HandlerConfig) (key : String) :
    (filled m).find? key = (m.find? key).or (if key ∈ handlerNames then some {} else none) := by
  unfold filled
  generalize handlerNames = names
  induction names generalizing m with
  | nil => simp
  | cons name names ih =>
    rw [List.foldl_cons, ih]
    by_cases known : m.contains name = true
    · obtain ⟨a, found⟩ := contains_iff.1 known
      rw [if_pos known]
      by_cases own : key = name
      · rw [own, found, Option.some_or, Option.some_or]
      · simp only [List.mem_cons, own, false_or]
    · rw [if_neg known]
      by_cases own : key = name
      · have none : m.find? name = none := by
          cases found : m.find? name with
          | none => rfl
          | some a => exact absurd (contains_iff.2 ⟨a, found⟩) known
        simp [own, none, SortedMap.find?_insert_self]
      · simp only [List.mem_cons, own, false_or, SortedMap.find?_insert_ne own]

theorem filled_of_complete (complete : c.Complete) : filled c.handlers = c.handlers := by
  refine SortedMap.ext_find? fun key => ?_
  rw [find?_filled]
  by_cases known : key ∈ handlerNames
  · obtain ⟨a, found⟩ := contains_iff.1 (complete key known)
    rw [found, Option.some_or]
  · rw [if_neg known, Option.or_none]

theorem fillHandlers_of_complete (complete : c.Complete) : c.fillHandlers = c := by
  rw [fillHandlers_eq, filled_of_complete complete]

theorem complete_fillHandlers (c : Config) : c.fillHandlers.Complete := by
  rw [fillHandlers_eq]
  intro name mem
  rw [contains_iff, find?_filled, if_pos mem]
  cases c.handlers.find? name with
  | none => exact ⟨_, rfl⟩
  | some a => exact ⟨a, rfl⟩

theorem mem_filled {m : SortedMap HandlerConfig} {h : HandlerConfig} (mem : h ∈ (filled m).values) :
    h ∈ m.values ∨ h = {} := by
  obtain ⟨⟨key, h⟩, there, rfl⟩ := List.mem_map.1 mem
  have found := SortedMap.find?_eq_some_iff.2 there
  rw [find?_filled, Option.or_eq_some_iff] at found
  rcases found with own | ⟨-, default⟩
  · exact .inl (List.mem_map_of_mem (SortedMap.find?_eq_some_iff.1 own))
  · split at default
    · exact .inr (Option.some.inj default).symm
    · cases default

theorem valid_fillHandlers (valid : c.Valid) : c.fillHandlers.Valid := by
  rw [fillHandlers_eq]
  refine ⟨valid.limit, valid.concurrency, valid.delegation, fun h mem => ?_, valid.health⟩
  dsimp only at mem
  rcases mem_filled mem with own | rfl
  · exact valid.handlers h own
  · exact handlerConfig_valid_default

theorem valid_default : ({} : Config).Valid where
  limit := ⟨by decide, by decide⟩
  concurrency := by decide
  delegation := by decide
  handlers := by
    intro h mem
    obtain ⟨e, there, rfl⟩ := List.mem_map.1 mem
    obtain ⟨name, -, rfl⟩ := List.mem_map.1 (SortedMap.mem_ofList there)
    exact handlerConfig_valid_default
  health := ⟨by decide, by decide⟩

theorem complete_default : ({} : Config).Complete := by
  unfold Complete
  decide

theorem valid_of_record (done : record? (fields isUnit) {} v = some c) : c.Valid := by
  refine record?_kept ?_ valid_default done
  simp only [fields, List.forall_mem_cons]
  refine ⟨?enabled, ?dbPath, ?manifestPath, ?sources, ?gitignore, ?patterns, ?symlinks, ?limit, ?concurrency,
    ?delegation, ?tokenizer, ?handlers, ?health, fun _ none => by cases none⟩
  case limit => exact kept_of fun _ _ _ value h => ⟨tokenLimit?_valid value, h.2, h.3, h.4, h.5⟩
  case concurrency => exact kept_of fun _ _ _ value h => ⟨h.1, nat?_le value, h.3, h.4, h.5⟩
  case delegation => exact kept_of fun _ _ _ value h => ⟨h.1, h.2, nat?_le value, h.4, h.5⟩
  case handlers =>
    refine kept_of fun _ _ _ value h => ⟨h.1, h.2, h.3, fun own mem => ?_, h.5⟩
    obtain ⟨w, read⟩ := map?_values value own mem
    exact handlerConfig_valid read
  case health => exact kept_of fun _ _ _ value h => ⟨h.1, h.2, h.3, h.4, healthConfig_valid value⟩
  all_goals exact kept_of fun _ _ _ _ h => ⟨h.1, h.2, h.3, h.4, h.5⟩

theorem of_ofData (done : ofData? isUnit v = some c) : c.Valid ∧ c.Complete := by
  obtain ⟨raw, read, rfl⟩ := Option.map_eq_some_iff.1 done
  exact ⟨valid_fillHandlers (valid_of_record read), complete_fillHandlers raw⟩

/-! ### Fields in their text -/

theorem restores_limit {l : TokenLimit} (valid : l.Valid) : Restores tokenLimit? (limitJson l) l True := by
  cases l with
  | auto => exact restores_plain (.str "auto") rfl
  | limit n =>
    refine restores_plain (.int (read_nat valid.2)) ?_
    have positive : n ≠ 0 := Nat.ne_of_gt valid.1
    have value : nat? (.int n) = some n := nat?_nat valid.2
    simp only [limitJson, tokenLimit?, Json.nat, value, positive, if_false]

theorem restores_rules (isUnit : Json → Bool) (r : IgnoreRules) :
    Restores (ignoreRules? isUnit) (.str r.name) r True := by
  refine restores_plain (.str r.name) ?_
  show IgnoreRules.ofName? r.name = some r
  cases r <;> rfl

theorem distinct_fields (isUnit : Json → Bool) : ((fields isUnit).map RecordField.name).Nodup := by
  have same : (fields isUnit).map RecordField.name = (fields isNull).map RecordField.name := rfl
  rw [same]
  decide

theorem distinct_handlerFields : (handlerFields.map RecordField.name).Nodup := by decide

theorem distinct_healthFields : (healthFields.map RecordField.name).Nodup := by decide

theorem optional?_limit (l : TokenLimit) :
    optional? tokenLimit? (limitJson l) = (tokenLimit? (limitJson l)).map some := by
  cases l <;> rfl

/-- A handler without a cap of its own has no member for it. -/
theorem restores_handler {h : HandlerConfig} (valid : h.Valid) :
    Restores (record? handlerFields {}) (handlerJson h) h True := by
  obtain ⟨enabled, maxTokens⟩ := h
  cases maxTokens with
  | none =>
    refine restores_plain (.obj rfl (.cons (.bool enabled) .nil)) ?_
    exact record?_given _ (List.Sublist.cons_cons _ (List.nil_sublist _)) distinct_handlerFields rfl
  | some l =>
    have limit := (restores_limit (valid l rfl)).own trivial
    refine restores_plain (.obj rfl (.cons (.bool enabled) (.cons limit.1 .nil))) ?_
    refine (record?_obj _ distinct_handlerFields rfl).trans ?_
    simp only [handlerFields, RecordField.of, List.map_cons, List.map_nil, setItems, bool?, Option.map_some,
      Option.bind_some, optional?_limit, limit.2]

theorem setItems_health {h h' : HealthConfig} (w₁ w₂ w₃ w₄ : Json) :
    setItems healthFields [w₁, w₂, w₃, w₄] h' = some h ↔
      float? w₁ = some h.lockWaitWarningSeconds ∧ float? w₂ = some h.lockWaitErrorSeconds ∧
      nat? w₃ = some h.lockContentionWarning ∧ nat? w₄ = some h.lockContentionError := by
  simp only [healthFields, setItems, RecordField.of, Option.bind_eq_some_iff, Option.map_eq_some_iff,
    exists_exists_and_eq_and]
  constructor
  · rintro ⟨_, h₁, _, h₂, _, h₃, _, h₄, made⟩
    cases made
    exact ⟨h₁, h₂, h₃, h₄⟩
  · rintro ⟨h₁, h₂, h₃, h₄⟩
    exact ⟨_, h₁, _, h₂, _, h₃, _, h₄, rfl⟩

def healthJson (h : HealthConfig) : Json :=
  .obj [
    ("lock_wait_warning_seconds", .float h.lockWaitWarningSeconds),
    ("lock_wait_error_seconds", .float h.lockWaitErrorSeconds),
    ("lock_contention_warning", .nat h.lockContentionWarning),
    ("lock_contention_error", .nat h.lockContentionError)]

/-- Doubles that are read as they are written. -/
def Echo (h : HealthConfig) : Prop := Echoes h.lockWaitWarningSeconds ∧ Echoes h.lockWaitErrorSeconds

theorem restores_health {h : HealthConfig} (valid : h.Valid) :
    Restores (record? healthFields {}) (healthJson h) h (Echo h) := by
  have warning := restores_float h.lockWaitWarningSeconds
  have error := restores_float h.lockWaitErrorSeconds
  have count := (restores_nat h.lockContentionWarning).own valid.warning
  have count' := (restores_nat h.lockContentionError).own valid.error
  constructor
  · rintro ⟨echo, echo'⟩
    have w₁ := warning.own echo
    have w₂ := error.own echo'
    refine ⟨.obj rfl ?_, (record?_obj _ distinct_healthFields rfl).trans ((setItems_health ..).2 ?_)⟩
    · exact .cons w₁.1 <| .cons w₂.1 <| .cons count.1 <| .cons count'.1 .nil
    · exact ⟨w₁.2, w₂.2, count.2, count'.2⟩
  · intro w reads done
    cases reads with
    | @obj _ members keys each =>
      rw [record?_obj _ distinct_healthFields keys] at done
      generalize members.map Prod.snd = ws at each done
      obtain _ | ⟨r₁, _ | ⟨r₂, _ | ⟨r₃, _ | ⟨r₄, _ | _⟩⟩⟩⟩ := each
      obtain ⟨h₁, h₂, -, -⟩ := (setItems_health ..).1 done
      exact ⟨warning.back r₁ h₁, error.back r₂ h₂⟩

/-! ### The whole text -/

/-- What is written for each field; the second last but one is left out if there is nothing in it. -/
def cells (c : Config) : List Json := [
  .bool c.enabled, .str c.dbPath, .str c.manifestPath, ofMap .str c.sources, .str c.gitignoreBehavior.name,
  strings c.workspaceIgnorePatterns, .bool c.followSymlinks, limitJson c.generalMaxTokens,
  .nat c.maxConcurrency, .nat c.maxDelegationDepth, .optStr c.tokenizerPath, ofMap handlerJson c.handlers,
  healthJson c.health]

def leading (isUnit : Json → Bool) : List (RecordField Config) := (fields isUnit).take 10

def trailing (isUnit : Json → Bool) : List (RecordField Config) := (fields isUnit).drop 11

/-- Without a tokenizer, settings are as if there were nothing in its place. -/
theorem setItems_leading {items more : List Json} (count : items.length = 10) :
    setItems (leading isUnit ++ trailing isUnit) (items ++ more) {} =
      setItems (fields isUnit) (items ++ .null :: more) {} := by
  have split : fields isUnit = leading isUnit ++
      .of "tokenizer_path" (optional? str?) (fun s c => { c with tokenizerPath := s }) ::
        trailing isUnit := rfl
  rw [split]
  symm
  refine setItems_skip (P := fun c => c.tokenizerPath = none) ?kept rfl ?idle count.symm
  case kept =>
    simp only [leading, fields, List.take_succ_cons, List.take_zero, List.forall_mem_cons]
    refine ⟨?_, ?_, ?_, ?_, ?_, ?_, ?_, ?_, ?_, ?_, fun _ none => by cases none⟩
    all_goals exact kept_of fun _ _ _ _ none => none
  case idle =>
    intro c none
    cases c
    cases none
    rfl

theorem sublist_fields (isUnit : Json → Bool) :
    (leading isUnit ++ trailing isUnit).Sublist (fields isUnit) := by
  have split : fields isUnit = leading isUnit ++ ((fields isUnit).drop 10) :=
    (List.take_append_drop 10 _).symm
  rw [split]
  exact (List.Sublist.refl _).append (List.drop_sublist_drop_left _ (by decide))

theorem setItems_iff {a : Config} (w₁ w₂ w₃ w₄ w₅ w₆ w₇ w₈ w₉ w₁₀ w₁₁ w₁₂ w₁₃ : Json) :
    setItems (fields isUnit) [w₁, w₂, w₃, w₄, w₅, w₆, w₇, w₈, w₉, w₁₀, w₁₁, w₁₂, w₁₃] a = some c ↔
      bool? w₁ = some c.enabled ∧ str? w₂ = some c.dbPath ∧ str? w₃ = some c.manifestPath ∧
      map? str? w₄ = some c.sources ∧ ignoreRules? isUnit w₅ = some c.gitignoreBehavior ∧
      list? str? w₆ = some c.workspaceIgnorePatterns ∧ bool? w₇ = some c.followSymlinks ∧
      tokenLimit? w₈ = some c.generalMaxTokens ∧ nat? w₉ = some c.maxConcurrency ∧
      nat? w₁₀ = some c.maxDelegationDepth ∧ optional? str? w₁₁ = some c.tokenizerPath ∧
      map? (record? handlerFields {}) w₁₂ = some c.handlers ∧
      record? healthFields {} w₁₃ = some c.health := by
  simp only [fields, setItems, RecordField.of, Option.bind_eq_some_iff, Option.map_eq_some_iff,
    exists_exists_and_eq_and]
  constructor
  · rintro ⟨_, h₁, _, h₂, _, h₃, _, h₄, _, h₅, _, h₆, _, h₇, _, h₈, _, h₉, _, h₁₀, _, h₁₁, _, h₁₂, _, h₁₃, made⟩
    cases made
    exact ⟨h₁, h₂, h₃, h₄, h₅, h₆, h₇, h₈, h₉, h₁₀, h₁₁, h₁₂, h₁₃⟩
  · rintro ⟨h₁, h₂, h₃, h₄, h₅, h₆, h₇, h₈, h₉, h₁₀, h₁₁, h₁₂, h₁₃⟩
    exact ⟨_, h₁, _, h₂, _, h₃, _, h₄, _, h₅, _, h₆, _, h₇, _, h₈, _, h₉, _, h₁₀, _, h₁₁, _, h₁₂, _, h₁₃, rfl⟩

/-- Members of the written object, by name and value. -/
def members (c : Config) : List (String × Json) :=
  match c.toJson with
  | .obj members => members
  | _ => []

theorem toJson_eq (c : Config) : c.toJson = .obj c.members := rfl

/-- Values in their places, with nothing for a tokenizer that is left out. -/
def placed (c : Config) (values : List Json) : List Json :=
  match c.tokenizerPath with
  | some _ => values
  | none => values.take 10 ++ .null :: values.drop 10

theorem placed_members (c : Config) : c.placed (c.members.map Prod.snd) = c.cells := by
  obtain ⟨_, _, _, _, _, _, _, _, _, _, path, _, _⟩ := c
  cases path <;> rfl

theorem placed_reads {values : List Json} (each : List.Forall₂ ReadsAs (c.members.map Prod.snd) values) :
    List.Forall₂ ReadsAs c.cells (c.placed values) := by
  rw [← placed_members]
  unfold placed
  split
  · exact each
  · exact List.rel_append (List.forall₂_take 10 each) (.cons .null (List.forall₂_drop 10 each))

theorem names_without (isUnit : Json → Bool) (none : c.tokenizerPath = none) :
    c.members.map Prod.fst = (leading isUnit ++ trailing isUnit).map RecordField.name := by
  cases c
  cases none
  rfl

theorem names_with (isUnit : Json → Bool) {p : String} (path : c.tokenizerPath = some p) :
    c.members.map Prod.fst = (fields isUnit).map RecordField.name := by
  cases c
  cases path
  rfl

/-- Members that are named like those of the settings are read as values in their places. -/
theorem record?_members {members : List (String × Json)}
    (names : members.map Prod.fst = c.members.map Prod.fst) :
    record? (fields isUnit) {} (.obj members) =
      setItems (fields isUnit) (c.placed (members.map Prod.snd)) {} := by
  unfold placed
  split
  · rename_i path
    exact record?_obj _ (distinct_fields isUnit) (names.trans (names_with isUnit path))
  · rename_i none
    have own := names.trans (names_without isUnit none)
    have length : (members.map Prod.snd).length = 12 := by
      have count := congrArg List.length own
      rw [List.length_map] at count ⊢
      exact count
    rw [record?_given _ (sublist_fields isUnit) (distinct_fields isUnit) own,
      ← setItems_leading (by rw [List.length_take, length]; rfl), List.take_append_drop]

theorem mem_cells_of_mem (mem : v ∈ c.members.map Prod.snd) : v ∈ c.cells := by
  rw [← placed_members]
  unfold placed
  split
  · exact mem
  · rw [← List.take_append_drop 10 (c.members.map Prod.snd), List.mem_append] at mem
    exact List.mem_append.2 (mem.imp_right (List.mem_cons_of_mem _))

/-- Valid settings come back but for their doubles. -/
theorem record?_toJson (isUnit : Json → Bool) (valid : c.Valid) (echo : Echo c.health) :
    ReadsAs c.toJson c.toJson ∧ record? (fields isUnit) {} c.toJson = some c := by
  have sources : Restores (map? str?) (ofMap .str c.sources) c.sources _ :=
    restores_map fun x _ => restores_plain (.str x) rfl
  have handlers : Restores (map? (record? handlerFields {})) (ofMap handlerJson c.handlers) c.handlers _ :=
    restores_map fun h mem => restores_handler (valid.handlers h mem)
  have r₄ := sources.own fun _ _ => trivial
  have r₅ := (restores_rules isUnit c.gitignoreBehavior).own trivial
  have r₆ := (restores_strings c.workspaceIgnorePatterns).own trivial
  have r₈ := (restores_limit valid.limit).own trivial
  have r₉ := (restores_nat c.maxConcurrency).own valid.concurrency
  have r₁₀ := (restores_nat c.maxDelegationDepth).own valid.delegation
  have r₁₁ := (restores_optStr c.tokenizerPath).own trivial
  have r₁₂ := handlers.own fun _ _ => trivial
  have r₁₃ := (restores_health valid.health).own echo
  constructor
  · have each : ∀ v ∈ c.cells, ReadsAs v v := by
      simp only [cells, List.forall_mem_cons]
      exact ⟨.bool _, .str _, .str _, r₄.1, r₅.1, r₆.1, .bool _, r₈.1, r₉.1, r₁₀.1, r₁₁.1, r₁₂.1, r₁₃.1,
        fun _ none => by cases none⟩
    rw [toJson_eq]
    exact .obj rfl (List.forall₂_same.2 fun v mem => each v (mem_cells_of_mem mem))
  · rw [toJson_eq, record?_members rfl, placed_members]
    exact (setItems_iff ..).2
      ⟨rfl, rfl, rfl, r₄.2, r₅.2, r₆.2, rfl, r₈.2, r₉.2, r₁₀.2, r₁₁.2, r₁₂.2, r₁₃.2⟩

theorem echo_of_record (valid : c.Valid) (reads : ReadsAs c.toJson w)
    (done : record? (fields isUnit) {} w = some c') (same : c'.health = c.health) : Echo c.health := by
  rw [toJson_eq] at reads
  cases reads with
  | @obj _ members keys each =>
    rw [record?_members keys] at done
    have each := placed_reads each
    generalize c.placed (members.map Prod.snd) = ws at each done
    obtain _ | ⟨_, _ | ⟨_, _ | ⟨_, _ | ⟨_, _ | ⟨_, _ | ⟨_, _ | ⟨_, _ | ⟨_, _ | ⟨_, _ | ⟨_, _ | ⟨_, _ | ⟨_,
      _ | ⟨r₁₃, _ | _⟩⟩⟩⟩⟩⟩⟩⟩⟩⟩⟩⟩⟩ := each
    obtain ⟨-, -, -, -, -, -, -, -, -, -, -, -, h₁₃⟩ := (setItems_iff ..).1 done
    exact (restores_health valid.health).back r₁₃ (same ▸ h₁₃)

theorem restores (isUnit : Json → Bool) (valid : c.Valid) (complete : c.Complete) :
    Restores (ofData? isUnit) c.toJson c (Echo c.health) := by
  constructor
  · intro echo
    obtain ⟨reads, done⟩ := record?_toJson isUnit valid echo
    refine ⟨reads, ?_⟩
    rw [ofData?, done, Option.map_some, fillHandlers_of_complete complete]
  · intro w reads done
    obtain ⟨raw, read, filled⟩ := Option.map_eq_some_iff.1 done
    refine echo_of_record valid reads read ?_
    rw [← filled, fillHandlers_eq]

/-! ### Settings in their text -/

theorem depth_limitJson (l : TokenLimit) : (limitJson l).depth = 0 := by
  cases l <;> rfl

theorem depth_handlerJson (h : HandlerConfig) : (handlerJson h).depth ≤ 1 := by
  obtain ⟨enabled, maxTokens⟩ := h
  cases maxTokens with
  | none => exact Nat.le_refl 1
  | some l =>
    refine Nat.succ_le_succ (depthMembers_le.2 ?_)
    simp [Json.depth, depth_limitJson]

theorem depth_cells (c : Config) : ∀ v ∈ c.cells, v.depth ≤ 2 := by
  have sources : (ofMap Json.str c.sources).depth ≤ 1 := depth_ofMap (fun _ => Nat.le_refl 0) _
  have limit : (limitJson c.generalMaxTokens).depth ≤ 2 := depth_limitJson _ ▸ Nat.zero_le 2
  have tokenizer : (optStr c.tokenizerPath).depth ≤ 2 := depth_optStr _ ▸ Nat.zero_le 2
  have health : (healthJson c.health).depth ≤ 2 := by
    simp [healthJson, Json.nat, Json.depth, depthMembers]
  simp only [cells, List.forall_mem_cons]
  exact ⟨Nat.zero_le _, Nat.zero_le _, Nat.zero_le _, Nat.le_succ_of_le sources, Nat.zero_le _,
    Nat.le_succ_of_le (depth_strings _), Nat.zero_le _, limit, Nat.zero_le _, Nat.zero_le _, tokenizer,
    depth_ofMap depth_handlerJson _, health, fun _ none => by cases none⟩

theorem depth_toJson (c : Config) : c.toJson.depth ≤ 3 := by
  rw [toJson_eq]
  refine Nat.succ_le_succ (depthMembers_le.2 fun e mem => ?_)
  exact depth_cells c _ (mem_cells_of_mem (List.mem_map_of_mem mem))

/-- Valid settings without gaps are read from their text exactly if their doubles are. -/
theorem ofJson?_text (valid : c.Valid) (complete : c.Complete) :
    ofJson? c.text = some c ↔ Echo c.health := by
  have deep : c.toJson.depth ≤ maxDepth := Nat.le_trans c.depth_toJson (by decide)
  unfold ofJson? text
  constructor
  · intro done
    split at done
    · rename_i v read
      exact (restores isNull valid complete).back (read_pretty read) done
    · cases done
  · intro echo
    obtain ⟨reads, value⟩ := (restores isNull valid complete).own echo
    rw [(read_pretty_iff deep).2 reads]
    exact value

end Config

end SourceSlices
