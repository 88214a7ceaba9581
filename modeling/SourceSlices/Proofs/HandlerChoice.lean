import Mathlib.Data.List.Induction
import Mathlib.Data.List.Nodup
import SourceSlices.Proofs.MetadataKeys
import SourceSlices.Registry

/-!
Which handler reads a file: the one its path has been bound to, else the one the caller names, else the
one for its interpreter or its suffix, else plain text. Plain text also steps in for a handler that was
found but cannot work. Nothing is chosen only if a caller asks for a handler that is not registered.
-/
namespace SourceSlices

/-- What is cut off at the end of a text, and where that stops. -/
theorem Text.trimEndWhere_iff {p : Char → Bool} {cs stem : List Char} : trimEndWhere p cs = stem ↔
    ∃ rest, cs = stem ++ rest ∧ (∀ c ∈ rest, p c = true) ∧ ∀ c ∈ stem.getLast?, ¬ p c = true := by
  constructor
  · rintro rfl
    refine ⟨(cs.reverse.takeWhile p).reverse, ?_, ?_, ?_⟩
    · rw [trimEndWhere, ← List.reverse_append, List.takeWhile_append_dropWhile, List.reverse_reverse]
    · intro c mem
      exact List.all_eq_true.1 List.all_takeWhile c (List.mem_reverse.1 mem)
    · intro c last
      rw [trimEndWhere, List.getLast?_reverse] at last
      have stop := List.head?_dropWhile_not p cs.reverse
      rw [Option.mem_def.1 last] at stop
      simp [stop]
  · rintro ⟨rest, rfl, cut, stop⟩
    have kept : stem.reverse.dropWhile p = stem.reverse := by
      rw [← List.head?_reverse] at stop
      cases back : stem.reverse with
      | nil => rfl
      | cons c cs => exact List.dropWhile_cons_of_neg (stop c (by rw [back]; rfl))
    rw [trimEndWhere, List.reverse_append,
      List.dropWhile_append_of_pos fun c mem => cut c (List.mem_reverse.1 mem), kept, List.reverse_reverse]

namespace Registry

/-! ### Bound paths -/

/-- Calls by which paths are bound to handlers and released. -/
inductive Call where
  | set (path name : String)
  | remove (path : String)

/-- A path cannot be bound to a handler that is not registered, so nothing is changed then. -/
def apply (r : Registry) : Call → Registry
  | .set path name =>
    match r.setOverride path name with
    | .ok s => s
    | .error _ => r
  | .remove path => (r.removeOverride path).1

def run (r : Registry) (calls : List Call) : Registry := calls.foldl apply r

/-- Calls that bind or release a path. -/
inductive Counts (ds : List Descriptor) (path : String) : Call → Prop where
  | set {other name : String} (same : Path.key other = Path.key path) (known : ∃ d ∈ ds, d.name = name) :
      Counts ds path (.set other name)
  | remove {other : String} (same : Path.key other = Path.key path) : Counts ds path (.remove other)

/-- The last call that counts for a path binds it to that handler. -/
def Bound (ds : List Descriptor) (calls : List Call) (path name : String) : Prop :=
  ∃ before after other, calls = before ++ .set other name :: after ∧
    Counts ds path (.set other name) ∧ ∀ call ∈ after, ¬ Counts ds path call

variable {r : Registry} {ds : List Descriptor} {calls : List Call} {call : Call} {path name : String}
  {d : Descriptor}

theorem counts_set_iff {other : String} : Counts ds path (.set other name) ↔
    Path.key other = Path.key path ∧ ∃ d ∈ ds, d.name = name := by
  constructor
  · rintro (⟨same, known⟩ | _)
    exact ⟨same, known⟩
  · rintro ⟨same, known⟩
    exact .set same known

theorem counts_remove_iff {other : String} : Counts ds path (.remove other) ↔
    Path.key other = Path.key path := by
  constructor
  · rintro (_ | same)
    exact same
  · exact .remove

theorem not_bound_nil : ¬ Bound ds [] path name := by
  rintro ⟨before, after, other, none, -⟩
  exact absurd none.symm (by simp)

/-- The last call decides if it counts, and else the calls before it. -/
theorem bound_append : Bound ds (calls ++ [call]) path name ↔
    (Counts ds path call ∧ ∃ other, call = .set other name) ∨
      (¬ Counts ds path call ∧ Bound ds calls path name) := by
  constructor
  · rintro ⟨before, after, other, split, counts, rest⟩
    rcases List.eq_nil_or_concat after with rfl | ⟨after, last, rfl⟩
    · obtain rfl := List.singleton_inj.1 (List.append_inj' split rfl).2
      exact .inl ⟨counts, other, rfl⟩
    · rw [List.concat_eq_append, ← List.cons_append, ← List.append_assoc] at split
      obtain ⟨rfl, same⟩ := List.append_inj' split rfl
      obtain rfl := List.singleton_inj.1 same
      refine .inr ⟨rest call (by simp), before, after, other, rfl, counts, ?_⟩
      intro c mem
      exact rest c (by simp [mem])
  · rintro (⟨counts, other, rfl⟩ | ⟨idle, before, after, other, rfl, counts, rest⟩)
    · exact ⟨calls, [], other, rfl, counts, by simp⟩
    · refine ⟨before, after ++ [call], other, by simp, counts, ?_⟩
      intro c mem
      rcases List.mem_append.1 mem with mem | mem
      · exact rest c mem
      · exact List.mem_singleton.1 mem ▸ idle

theorem contains_iff : r.contains name = true ↔ ∃ d ∈ r.descriptors, d.name = name := by
  simp [contains, find?]

theorem apply_set (r : Registry) (path name : String) : r.apply (.set path name) =
    if r.contains name then { r with overrides := r.overrides.insert (Path.key path) name } else r := by
  simp only [apply, setOverride]
  by_cases known : r.contains name = true
  · simp only [known, if_true]
  · simp only [known, Bool.false_eq_true, if_false]

theorem apply_kept (r : Registry) (call : Call) :
    (r.apply call).descriptors = r.descriptors ∧ (r.apply call).settings = r.settings := by
  cases call with
  | set path name =>
    rw [apply_set]
    split
    · exact ⟨rfl, rfl⟩
    · exact ⟨rfl, rfl⟩
  | remove path => exact ⟨rfl, rfl⟩

/-- A call that counts for a path says what is known of it then. -/
theorem apply_override (r : Registry) (call : Call) :
    (r.apply call).overrides.find? (Path.key path) = some name ↔
      (Counts r.descriptors path call ∧ ∃ other, call = .set other name) ∨
        (¬ Counts r.descriptors path call ∧ r.overrides.find? (Path.key path) = some name) := by
  cases call with
  | set other bound =>
    rw [apply_set, counts_set_iff, ← contains_iff]
    by_cases known : r.contains bound = true
    · by_cases same : Path.key other = Path.key path
      · simp [known, same, SortedMap.find?_insert_self]
      · simp [known, same, SortedMap.find?_insert_ne (Ne.symm same)]
    · simp [known]
  | remove other =>
    rw [counts_remove_iff]
    by_cases same : Path.key other = Path.key path
    · simp [apply, removeOverride, same, SortedMap.find?_erase_self]
    · simp [apply, removeOverride, same, SortedMap.find?_erase_ne (Ne.symm same)]

/-- Calls leave handlers and settings as they are, and paths bound as the last calls for them say. -/
theorem run_kept (r : Registry) (calls : List Call) :
    (r.run calls).descriptors = r.descriptors ∧ (r.run calls).settings = r.settings := by
  induction calls using List.reverseRecOn with
  | nil => exact ⟨rfl, rfl⟩
  | append_singleton calls call ih =>
    rw [run, List.foldl_append]
    exact ⟨(apply_kept _ call).1.trans ih.1, (apply_kept _ call).2.trans ih.2⟩

theorem run_override (fresh : r.overrides = ∅) :
    (r.run calls).overrides.find? (Path.key path) = some name ↔ Bound r.descriptors calls path name := by
  induction calls using List.reverseRecOn with
  | nil =>
    rw [run, List.foldl_nil, fresh]
    refine iff_of_false ?_ not_bound_nil
    simp [SortedMap.find?, EmptyCollection.emptyCollection, SortedMap.empty]
  | append_singleton calls call ih =>
    rw [run, List.foldl_append]
    change ((r.run calls).apply call).overrides.find? _ = _ ↔ _
    rw [apply_override, (run_kept r calls).1, ih, bound_append]

/-! ### Handlers for interpreters and suffixes -/

/-- The first of several descriptors with a property. -/
inductive First (p : Descriptor → Prop) : List Descriptor → Descriptor → Prop where
  | here {d : Descriptor} {rest : List Descriptor} (own : p d) : First p (d :: rest) d
  | there {c d : Descriptor} {rest : List Descriptor} (other : ¬ p c) (later : First p rest d) :
      First p (c :: rest) d

/-- What is left of the name of an interpreter without the digits and dots at its end. -/
def Unversioned (interpreter stem : String) : Prop :=
  ∃ version, interpreter.toList = stem.toList ++ version ∧
    (∀ c ∈ version, c.isDigit = true ∨ c = '.') ∧
    ∀ c ∈ stem.toList.getLast?, ¬ (c.isDigit = true ∨ c = '.')

/-- A handler for an interpreter as it is named, or for any version of it if there is none. -/
inductive Interprets (ds : List Descriptor) (interpreter : String) : Descriptor → Prop where
  | named {d : Descriptor} (first : First (interpreter ∈ ·.shebangs) ds d) : Interprets ds interpreter d
  | unversioned {d : Descriptor} {stem : String} (none : ∀ d ∈ ds, interpreter ∉ d.shebangs)
      (left : Unversioned interpreter stem) (first : First (stem ∈ ·.shebangs) ds d) :
      Interprets ds interpreter d

/-- A handler found for a file, and how: the suffix counts only if there is none for an interpreter. -/
inductive Found (ds : List Descriptor) (path : String) (shebang : Option String) :
    Descriptor → String → Prop where
  | interpreter {d : Descriptor} {i : String} (line : shebang.bind normalizeShebang = some i)
      (reads : Interprets ds i d) : Found ds path shebang d ("shebang:" ++ i)
  | suffix {d : Descriptor} {e : String}
      (none : ∀ i, shebang.bind normalizeShebang = some i → ∀ d, ¬ Interprets ds i d)
      (ends : Path.extension? path = some e) (first : First (e ∈ ·.extensions) ds d) :
      Found ds path shebang d ("extension:" ++ e)

/-- Handlers are enabled unless the settings say otherwise. -/
def Enabled (settings : SortedMap HandlerConfig) (d : Descriptor) : Prop :=
  ∀ s, settings.find? d.name = some s → s.enabled = true

/-- Plain text for a reason, which gives way to its own bad health. -/
inductive Default (ds : List Descriptor) (reason : String) (fallback : Bool) : Selection → Prop where
  | healthy {t : Descriptor} (mem : t ∈ ds) (text : t.name = defaultHandler) (well : t.health.status = .ok) :
      Default ds reason fallback ⟨t.name, t.version, reason, fallback⟩
  | unhealthy {t : Descriptor} (mem : t ∈ ds) (text : t.name = defaultHandler)
      (ill : t.health.status ≠ .ok) :
      Default ds reason fallback ⟨t.name, t.version, "unhealthy:" ++ t.health.summary, false⟩

/-- What is chosen once a handler has been found. If it is rejected, no other one is looked for. -/
inductive Checked (ds : List Descriptor) (settings : SortedMap HandlerConfig) (d : Descriptor) (via : String) :
    Selection → Prop where
  | available (enabled : Enabled settings d) (well : d.health.status = .ok) :
      Checked ds settings d via ⟨d.name, d.version, via, false⟩
  | disabled {s : Selection} (off : ¬ Enabled settings d) (default : Default ds "fallback:disabled" true s) :
      Checked ds settings d via s
  | dependency {s : Selection} (enabled : Enabled settings d) (ill : d.health.status ≠ .ok)
      (default : Default ds "fallback:dependency" true s) : Checked ds settings d via s

/-- What is chosen by the interpreter line and the suffix of a file. -/
inductive ByContent (ds : List Descriptor) (settings : SortedMap HandlerConfig) (path : String)
    (shebang : Option String) : Selection → Prop where
  | found {d : Descriptor} {via : String} {s : Selection} (found : Found ds path shebang d via)
      (checked : Checked ds settings d via s) : ByContent ds settings path shebang s
  | default {s : Selection} (none : ∀ d via, ¬ Found ds path shebang d via)
      (default : Default ds "default" false s) : ByContent ds settings path shebang s

/-- What is chosen for a file: the handler of its path, the one that is asked for, or one by its content. -/
inductive Chosen (ds : List Descriptor) (settings : SortedMap HandlerConfig) (calls : List Call)
    (path : String) (explicit shebang : Option String) : Selection → Prop where
  | bound {d : Descriptor} (bound : Bound ds calls path d.name) (mem : d ∈ ds) :
      Chosen ds settings calls path explicit shebang ⟨d.name, d.version, "override", false⟩
  | asked {d : Descriptor} (free : ∀ name, ¬ Bound ds calls path name) (asked : explicit = some d.name)
      (mem : d ∈ ds) :
      Chosen ds settings calls path explicit shebang ⟨d.name, d.version, "explicit", false⟩
  | content {s : Selection} (free : ∀ name, ¬ Bound ds calls path name) (unasked : explicit = none)
      (content : ByContent ds settings path shebang s) :
      Chosen ds settings calls path explicit shebang s

variable {p : Descriptor → Bool} {interpreter stem : String}

theorem find?_iff_first : ds.find? p = some d ↔ First (p · = true) ds d := by
  constructor
  · intro found
    induction ds with
    | nil => cases found
    | cons c ds ih =>
      rw [List.find?_cons] at found
      split at found
      · rename_i own
        cases found
        exact .here own
      · rename_i other
        exact .there (by simp [other]) (ih found)
  · intro first
    induction first with
    | here own => exact List.find?_cons_of_pos own
    | there other _ ih => rw [List.find?_cons_of_neg other, ih]

theorem byShebang?_iff : r.byShebang? interpreter = some d ↔
    First (interpreter ∈ ·.shebangs) r.descriptors d := by
  rw [byShebang?, find?_iff_first]
  simp only [List.contains_iff_mem]

theorem byExtension?_iff : r.byExtension? name = some d ↔ First (name ∈ ·.extensions) r.descriptors d := by
  rw [byExtension?, find?_iff_first]
  simp only [List.contains_iff_mem]

theorem unversioned_iff : Unversioned interpreter stem ↔
    stem = String.ofList (Text.trimEndWhere (fun c => c.isDigit || c == '.') interpreter.toList) := by
  simp only [Unversioned, ← String.toList_inj, String.toList_ofList, eq_comm (a := stem.toList),
    Text.trimEndWhere_iff, Bool.or_eq_true, beq_iff_eq]

theorem forInterpreter?_iff : r.forInterpreter? interpreter = some d ↔
    Interprets r.descriptors interpreter d := by
  unfold forInterpreter?
  cases named : r.byShebang? interpreter with
  | some c =>
    constructor
    · intro same
      cases same
      exact .named (byShebang?_iff.1 named)
    · intro reads
      cases reads with
      | named first => rw [← named, byShebang?_iff.2 first]
      | unversioned none =>
        have other := none c (List.mem_of_find?_eq_some named)
        exact absurd (List.find?_some named) (by simp [other])
  | none =>
    have none : ∀ d ∈ r.descriptors, interpreter ∉ d.shebangs := by
      simpa [byShebang?] using named
    constructor
    · intro found
      exact .unversioned none (unversioned_iff.2 rfl) (byShebang?_iff.1 found)
    · intro reads
      cases reads with
      | named first =>
        rw [byShebang?_iff.2 first] at named
        cases named
      | unversioned _ left first =>
        rw [unversioned_iff.1 left] at first
        exact byShebang?_iff.2 first

/-- A handler for a file by its interpreter or its suffix, and how it is found. -/
def found? (r : Registry) (path : String) (shebang : Option String) : Option (Descriptor × String) :=
  match (shebang.bind normalizeShebang).bind fun i => (r.forInterpreter? i).map (i, ·) with
  | some (i, d) => some (d, "shebang:" ++ i)
  | none => (Path.extension? path).bind fun e => (r.byExtension? e).map (·, "extension:" ++ e)

variable {shebang explicit : Option String} {via : String} {s : Selection}

theorem found?_iff : r.found? path shebang = some (d, via) ↔ Found r.descriptors path shebang d via := by
  unfold found?
  cases read : (shebang.bind normalizeShebang).bind fun i => (r.forInterpreter? i).map (i, ·) with
  | some x =>
    obtain ⟨i, line, c, reads, rfl⟩ : ∃ i, shebang.bind normalizeShebang = some i ∧
        ∃ c, r.forInterpreter? i = some c ∧ (i, c) = x := by
      simpa only [Option.bind_eq_some_iff, Option.map_eq_some_iff] using read
    constructor
    · intro same
      cases same
      exact .interpreter line (forInterpreter?_iff.1 reads)
    · intro found
      cases found with
      | interpreter line' reads' =>
        obtain rfl := Option.some.inj (line.symm.trans line')
        rw [Option.some.inj (reads.symm.trans (forInterpreter?_iff.2 reads'))]
      | suffix none => exact absurd (forInterpreter?_iff.1 reads) (none i line c)
  | none =>
    have none : ∀ i, shebang.bind normalizeShebang = some i → ∀ d, ¬ Interprets r.descriptors i d := by
      intro i line d reads
      rw [line, Option.bind_some, forInterpreter?_iff.2 reads] at read
      cases read
    -- The suffix only counts where no interpreter is known.
    simp only [Option.bind_eq_some_iff, Option.map_eq_some_iff, byExtension?_iff]
    constructor
    · rintro ⟨e, ends, c, first, same⟩
      cases same
      exact .suffix none ends first
    · intro found
      cases found with
      | interpreter line reads => exact absurd reads (none _ line d)
      | suffix _ ends first => exact ⟨_, ends, d, first, rfl⟩

theorem resolveByContent_eq (r : Registry) (path : String) (shebang : Option String) :
    r.resolveByContent path shebang =
      match r.found? path shebang with
      | some (d, via) => r.selectChecked d via
      | none => r.selectDefault "default" false := by
  simp only [resolveByContent, found?]
  cases (shebang.bind normalizeShebang).bind fun i => (r.forInterpreter? i).map (i, ·) with
  | some x => rfl
  | none =>
    cases Path.extension? path with
    | none => rfl
    | some e => cases read : r.byExtension? e <;> simp only [Option.bind_some, read] <;> rfl

/-! ### Registered handlers -/

/-- Names are those of one handler each, and one of them is that of plain text. -/
structure Sound (ds : List Descriptor) : Prop where
  distinct : (ds.map (·.name)).Nodup
  text : ∃ t ∈ ds, t.name = defaultHandler

theorem repeated?_eq_none_iff {seen names : List String} :
    repeated? seen names = none ↔ names.Nodup ∧ ∀ n ∈ names, n ∉ seen := by
  induction names generalizing seen with
  | nil => simp [repeated?]
  | cons n names ih =>
    rw [repeated?, List.nodup_cons, List.forall_mem_cons]
    by_cases again : n ∈ seen
    · simp [again]
    · simp only [List.contains_iff_mem, again, if_false, ih, List.mem_cons, not_or]
      constructor
      · rintro ⟨distinct, new⟩
        exact ⟨⟨fun mem => (new n mem).1 rfl, distinct⟩, not_false, fun m mem => (new m mem).2⟩
      · rintro ⟨⟨own, distinct⟩, -, new⟩
        exact ⟨distinct, fun m mem => ⟨fun same => own (same ▸ mem), new m mem⟩⟩

theorem make_ok_iff {settings : SortedMap HandlerConfig} :
    make ds settings = .ok r ↔ Sound ds ∧ r = { descriptors := ds, settings } := by
  have sound : Sound ds ↔ repeated? [] (ds.map (·.name)) = none ∧
      ds.any (·.name == defaultHandler) = true := by
    rw [repeated?_eq_none_iff, List.any_eq_true]
    simp only [beq_iff_eq]
    exact ⟨fun ⟨distinct, text⟩ => ⟨⟨distinct, by simp⟩, text⟩, fun ⟨distinct, text⟩ => ⟨distinct.1, text⟩⟩
  rw [sound]
  unfold make
  cases repeated? [] (ds.map (·.name)) with
  | some n => simp
  | none =>
    by_cases text : ds.any (·.name == defaultHandler) = true
    · simp [text, eq_comm]
    · simp [text]

theorem Sound.unique (sound : Sound ds) {d e : Descriptor} (mem : d ∈ ds) (mem' : e ∈ ds)
    (same : d.name = e.name) : d = e :=
  List.inj_on_of_nodup_map sound.distinct mem mem' same

theorem find?_iff (sound : Sound r.descriptors) :
    r.find? name = some d ↔ d ∈ r.descriptors ∧ d.name = name := by
  constructor
  · intro found
    exact ⟨List.mem_of_find?_eq_some found, by simpa using List.find?_some found⟩
  · rintro ⟨mem, rfl⟩
    cases found : r.find? d.name with
    | none =>
      have other := List.find?_eq_none.1 found d mem
      exact absurd (beq_self_eq_true d.name) other
    | some c =>
      have own : c.name = d.name := by simpa using List.find?_some found
      rw [sound.unique (List.mem_of_find?_eq_some found) mem own]

theorem isEnabled_iff (mem : d ∈ r.descriptors) : r.isEnabled d.name = true ↔ Enabled r.settings d := by
  rw [isEnabled, contains_iff.2 ⟨d, mem, rfl⟩, Bool.true_and, Enabled]
  cases r.settings.find? d.name <;> simp

theorem selectDefault_iff (sound : Sound r.descriptors) {fallback : Bool} :
    r.selectDefault via fallback = s ↔ Default r.descriptors via fallback s := by
  obtain ⟨t, mem, text⟩ := sound.text
  rw [selectDefault, (find?_iff sound).2 ⟨mem, text⟩]
  constructor
  · rintro rfl
    dsimp only
    split
    · rename_i well
      exact .healthy mem text well
    · rename_i ill
      exact .unhealthy mem text ill
  · intro default
    cases default with
    | healthy mem' text' well =>
      obtain rfl := sound.unique mem mem' (text.trans text'.symm)
      simp only [well, if_true]
      rfl
    | unhealthy mem' text' ill =>
      obtain rfl := sound.unique mem mem' (text.trans text'.symm)
      simp only [ill, if_false]
      rfl

theorem selectChecked_iff (sound : Sound r.descriptors) (mem : d ∈ r.descriptors) :
    r.selectChecked d via = s ↔ Checked r.descriptors r.settings d via s := by
  have off : (!r.isEnabled d.name) = true ↔ ¬ Enabled r.settings d := by
    rw [Bool.not_eq_true', ← Bool.not_eq_true, isEnabled_iff mem]
  rw [selectChecked]
  -- A handler that is switched off is not asked for what it depends on.
  by_cases enabled : Enabled r.settings d
  · rw [if_neg (mt off.1 (not_not_intro enabled))]
    by_cases well : d.health.status = .ok
    · rw [if_neg (not_not_intro well)]
      constructor
      · rintro rfl
        exact .available enabled well
      · intro checked
        cases checked with
        | available => rfl
        | disabled off => exact absurd enabled off
        | dependency _ ill => exact absurd well ill
    · rw [if_pos well, selectDefault_iff sound]
      constructor
      · exact .dependency enabled well
      · intro checked
        cases checked with
        | available _ own => exact absurd own well
        | disabled off => exact absurd enabled off
        | dependency _ _ default => exact default
  · rw [if_pos (off.2 enabled), selectDefault_iff sound]
    constructor
    · exact .disabled enabled
    · intro checked
      cases checked with
      | available on => exact absurd on enabled
      | disabled _ default => exact default
      | dependency on => exact absurd on enabled

theorem First.mem {p : Descriptor → Prop} (first : First p ds d) : d ∈ ds := by
  induction first with
  | here => exact List.mem_cons_self
  | there _ _ ih => exact List.mem_cons_of_mem _ ih

theorem Found.mem (found : Found ds path shebang d via) : d ∈ ds := by
  cases found with
  | interpreter line reads =>
    cases reads with
    | named first => exact first.mem
    | unversioned _ _ first => exact first.mem
  | suffix _ _ first => exact first.mem

theorem resolveByContent_iff (sound : Sound r.descriptors) :
    r.resolveByContent path shebang = s ↔ ByContent r.descriptors r.settings path shebang s := by
  rw [resolveByContent_eq]
  cases known : r.found? path shebang with
  | none =>
    have none : ∀ d via, ¬ Found r.descriptors path shebang d via := by
      intro d via found
      rw [found?_iff.2 found] at known
      cases known
    dsimp only
    rw [selectDefault_iff sound]
    constructor
    · exact .default none
    · intro content
      cases content with
      | found found => exact absurd found (none _ _)
      | default _ default => exact default
  | some x =>
    obtain ⟨d, via⟩ := x
    have found := found?_iff.1 known
    dsimp only
    rw [selectChecked_iff sound found.mem]
    constructor
    · exact .found found
    · intro content
      cases content with
      | found other checked =>
        cases known.symm.trans (found?_iff.2 other)
        exact checked
      | default none => exact absurd found (none d via)

/-! ### Choice -/

variable {settings : SortedMap HandlerConfig} {e : Error}

/-- No handler is chosen only if one is asked for that is not registered. -/
def Refused (ds : List Descriptor) (calls : List Call) (path : String) (explicit : Option String) (e : Error) :
    Prop :=
  ∃ name, e = .unknownHandler name ∧ explicit = some name ∧ (∀ d ∈ ds, d.name ≠ name) ∧
    ∀ other, ¬ Bound ds calls path other

theorem Bound.known (bound : Bound ds calls path name) : ∃ d ∈ ds, d.name = name := by
  obtain ⟨_, _, _, -, counts, -⟩ := bound
  exact (counts_set_iff.1 counts).2

/-- A registry of those handlers after the calls. -/
structure After (ds : List Descriptor) (settings : SortedMap HandlerConfig) (calls : List Call) (r : Registry) :
    Prop where
  descriptors : r.descriptors = ds
  settings : r.settings = settings
  overrides : ∀ path name, r.overrides.find? (Path.key path) = some name ↔ Bound ds calls path name

theorem after_run (ds : List Descriptor) (settings : SortedMap HandlerConfig) (calls : List Call) :
    After ds settings calls (run { descriptors := ds, settings } calls) :=
  ⟨(run_kept _ calls).1, (run_kept _ calls).2, fun _ _ => run_override rfl⟩

theorem override_iff (sound : Sound ds) (after : After ds settings calls r) :
    (r.overrides.find? (Path.key path)).bind r.find? = some d ↔ d ∈ ds ∧ Bound ds calls path d.name := by
  obtain ⟨rfl, rfl, bindings⟩ := after
  simp only [Option.bind_eq_some_iff, bindings, find?_iff sound]
  constructor
  · rintro ⟨name, bound, mem, rfl⟩
    exact ⟨mem, bound⟩
  · rintro ⟨mem, bound⟩
    exact ⟨d.name, bound, mem, rfl⟩

theorem override_none_iff (sound : Sound ds) (after : After ds settings calls r) :
    (r.overrides.find? (Path.key path)).bind r.find? = none ↔ ∀ name, ¬ Bound ds calls path name := by
  rw [Option.eq_none_iff_forall_not_mem]
  simp only [Option.mem_def, override_iff sound after]
  constructor
  · intro free name bound
    obtain ⟨d, mem, rfl⟩ := bound.known
    exact free d ⟨mem, bound⟩
  · rintro free d ⟨-, bound⟩
    exact free d.name bound

theorem find?_none_iff : r.find? name = none ↔ ∀ d ∈ r.descriptors, d.name ≠ name := by
  simp [find?]

theorem chosen_of_resolve (sound : Sound ds) (after : After ds settings calls r)
    (done : r.resolve path explicit shebang = .ok s) :
    Chosen ds settings calls path explicit shebang s := by
  unfold resolve at done
  split at done
  · rename_i d known
    obtain ⟨mem, bound⟩ := (override_iff sound after).1 known
    cases done
    exact .bound bound mem
  · rename_i known
    have free := (override_none_iff sound after).1 known
    obtain ⟨rfl, rfl, -⟩ := after
    split at done
    · split at done
      · rename_i d found
        obtain ⟨mem, rfl⟩ := (find?_iff sound).1 found
        cases done
        exact .asked free rfl mem
      · cases done
    · exact .content free rfl ((resolveByContent_iff sound).1 (Except.ok.inj done))

theorem resolve_of_chosen (sound : Sound ds) (after : After ds settings calls r)
    (chosen : Chosen ds settings calls path explicit shebang s) :
    r.resolve path explicit shebang = .ok s := by
  cases chosen with
  | bound bound mem =>
    simp only [resolve, (override_iff sound after).2 ⟨mem, bound⟩]
    rfl
  | asked free asked mem =>
    have known := (override_none_iff sound after).2 free
    obtain ⟨rfl, rfl, -⟩ := after
    simp only [resolve, known, asked, (find?_iff sound).2 ⟨mem, rfl⟩]
    rfl
  | content free unasked content =>
    have known := (override_none_iff sound after).2 free
    obtain ⟨rfl, rfl, -⟩ := after
    simp only [resolve, known, unasked, (resolveByContent_iff sound).2 content]

theorem resolve_ok_iff (sound : Sound ds) (after : After ds settings calls r) :
    r.resolve path explicit shebang = .ok s ↔ Chosen ds settings calls path explicit shebang s :=
  ⟨chosen_of_resolve sound after, resolve_of_chosen sound after⟩

theorem resolve_error_iff (sound : Sound ds) (after : After ds settings calls r) :
    r.resolve path explicit shebang = .error e ↔ Refused ds calls path explicit e := by
  constructor
  · intro done
    unfold resolve at done
    split at done
    · cases done
    · rename_i known
      split at done
      · rename_i name
        split at done
        · cases done
        · rename_i none
          cases done
          refine ⟨name, rfl, rfl, ?_, (override_none_iff sound after).1 known⟩
          exact after.descriptors ▸ find?_none_iff.1 none
      · cases done
  · rintro ⟨name, rfl, rfl, unknown, free⟩
    rw [← after.descriptors] at unknown
    simp only [resolve, (override_none_iff sound after).2 free, find?_none_iff.2 unknown]

/-- In working order, and not switched off. -/
def Available (settings : SortedMap HandlerConfig) (d : Descriptor) : Prop :=
  Enabled settings d ∧ d.health.status = .ok

theorem Default.text {fallback : Bool} (default : Default ds via fallback s) :
    ∃ t ∈ ds, s.name = t.name ∧ s.version = t.version ∧ t.name = defaultHandler := by
  cases default with
  | healthy mem text => exact ⟨_, mem, rfl, rfl, text⟩
  | unhealthy mem text => exact ⟨_, mem, rfl, rfl, text⟩

theorem ByContent.registered (content : ByContent ds settings path shebang s) :
    ∃ d ∈ ds, s.name = d.name ∧ s.version = d.version ∧ (Available settings d ∨ d.name = defaultHandler) := by
  have plain {reason : String} {fallback : Bool} (default : Default ds reason fallback s) :
      ∃ d ∈ ds, s.name = d.name ∧ s.version = d.version ∧ (Available settings d ∨ d.name = defaultHandler) := by
    obtain ⟨t, mem, name, version, text⟩ := default.text
    exact ⟨t, mem, name, version, .inr text⟩
  cases content with
  | found found checked =>
    cases checked with
    | available enabled well => exact ⟨_, found.mem, rfl, rfl, .inl ⟨enabled, well⟩⟩
    | disabled _ default => exact plain default
    | dependency _ _ default => exact plain default
  | default _ default => exact plain default

theorem Chosen.registered (chosen : Chosen ds settings calls path explicit shebang s) :
    ∃ d ∈ ds, s.name = d.name ∧ s.version = d.version ∧ ((∀ name, ¬ Bound ds calls path name) →
      explicit = none → Available settings d ∨ d.name = defaultHandler) := by
  cases chosen with
  | bound bound mem => exact ⟨_, mem, rfl, rfl, fun free => absurd bound (free _)⟩
  | asked _ asked mem =>
    refine ⟨_, mem, rfl, rfl, fun _ unasked => ?_⟩
    rw [asked] at unasked
    cases unasked
  | content _ _ content =>
    obtain ⟨d, mem, name, version, able⟩ := content.registered
    exact ⟨d, mem, name, version, fun _ _ => able⟩

theorem Found.unique {c : Descriptor} {how : String} (found : Found ds path shebang d via)
    (other : Found ds path shebang c how) : c = d := by
  have same := (found?_iff (r := { descriptors := ds, settings := ∅ })).2 found
  rw [found?_iff.2 other] at same
  cases same
  rfl

theorem Default.fallback_iff (sound : Sound ds) {fallback : Bool} (default : Default ds via fallback s) :
    s.fallback = true ↔ fallback = true ∧ ∀ t ∈ ds, t.name = defaultHandler → t.health.status = .ok := by
  cases default with
  | @healthy t mem text well =>
    refine (and_iff_left ?_).symm
    intro u mem' text'
    rw [sound.unique mem' mem (text'.trans text.symm), well]
  | unhealthy mem text ill =>
    refine iff_of_false (by simp) ?_
    intro both
    exact ill (both.2 _ mem text)

/-- Plain text is a stopgap exactly if a handler was found and rejected and plain text itself is well. -/
theorem ByContent.fallback_iff (sound : Sound ds) (content : ByContent ds settings path shebang s) :
    s.fallback = true ↔ (∃ d via, Found ds path shebang d via ∧ ¬ Available settings d) ∧
      ∀ t ∈ ds, t.name = defaultHandler → t.health.status = .ok := by
  cases content with
  | found found checked =>
    cases checked with
    | available enabled well =>
      refine iff_of_false (by simp) ?_
      rintro ⟨⟨c, how, other, rejected⟩, -⟩
      rw [found.unique other] at rejected
      exact rejected ⟨enabled, well⟩
    | disabled off default =>
      rw [default.fallback_iff sound]
      exact and_congr_left fun _ => iff_of_true rfl ⟨_, _, found, fun able => off able.1⟩
    | dependency _ ill default =>
      rw [default.fallback_iff sound]
      exact and_congr_left fun _ => iff_of_true rfl ⟨_, _, found, fun able => ill able.2⟩
  | default none default =>
    rw [default.fallback_iff sound]
    refine iff_of_false (by simp) ?_
    rintro ⟨⟨c, how, found, -⟩, -⟩
    exact none c how found

theorem Chosen.fallback_iff (sound : Sound ds) (chosen : Chosen ds settings calls path explicit shebang s) :
    s.fallback = true ↔ (∀ name, ¬ Bound ds calls path name) ∧ explicit = none ∧
      (∃ d via, Found ds path shebang d via ∧ ¬ Available settings d) ∧
      ∀ t ∈ ds, t.name = defaultHandler → t.health.status = .ok := by
  cases chosen with
  | bound bound => exact iff_of_false (by simp) fun all => all.1 _ bound
  | asked _ asked => exact iff_of_false (by simp) fun all => by simp [asked] at all
  | content free unasked content =>
    rw [content.fallback_iff sound]
    exact ⟨fun both => ⟨free, unasked, both⟩, fun all => all.2.2⟩

/-- Which handler a registry chooses after any calls: it follows the order given, and refuses only a name
that is asked for, not registered and not overruled. The choice is a registered handler; by content only
plain text or one that is available; and a stopgap exactly if plain text, in working order, stands in for
one that was rejected. -/
theorem resolve_chooses {ds : List Descriptor} {settings : SortedMap HandlerConfig} {r : Registry}
    (made : make ds settings = .ok r) (calls : List Call) (path : String) (explicit shebang : Option String) :
    (∀ s, (r.run calls).resolve path explicit shebang = .ok s ↔
      Chosen ds settings calls path explicit shebang s) ∧
    (∀ e, (r.run calls).resolve path explicit shebang = .error e ↔ Refused ds calls path explicit e) ∧
    ∀ s, (r.run calls).resolve path explicit shebang = .ok s →
      (∃ d ∈ ds, s.name = d.name ∧ s.version = d.version ∧ ((∀ name, ¬ Bound ds calls path name) →
        explicit = none → Available settings d ∨ d.name = defaultHandler)) ∧
      (s.fallback = true ↔ (∀ name, ¬ Bound ds calls path name) ∧ explicit = none ∧
        (∃ d via, Found ds path shebang d via ∧ ¬ Available settings d) ∧
        ∀ t ∈ ds, t.name = defaultHandler → t.health.status = .ok) := by
  obtain ⟨sound, rfl⟩ := make_ok_iff.1 made
  have after := after_run ds settings calls
  refine ⟨fun s => resolve_ok_iff sound after, fun e => resolve_error_iff sound after, fun s done => ?_⟩
  have chosen := (resolve_ok_iff sound after).1 done
  exact ⟨chosen.registered, chosen.fallback_iff sound⟩

/-- Python is switched off, one path is bound and released again, and another one stays bound. -/
def pythonOff : SortedMap HandlerConfig := SortedMap.ofList [("python", { enabled := false })]

def rebinding : List Call :=
  [.set "/a/b.py" "css", .set "/a/./c" "html", .remove "/a//b.py", .set "/a/b.py" "ruby"]

theorem resolve_chooses_rebinding : ∃ r, make Descriptor.defaults pythonOff = .ok r ∧
    Chosen Descriptor.defaults pythonOff rebinding "/a/c" (some "ruby") none
      ⟨"html", "1.0.0", "override", false⟩ ∧
    Refused Descriptor.defaults rebinding "/a/b.py" (some "ruby") (.unknownHandler "ruby") ∧
    (∃ s, (r.run rebinding).resolve "/a/b.py" none (some "#!/usr/bin/env -S python3.11") = .ok s ∧
      s.name = "text" ∧ s.resolvedVia = "fallback:disabled") ∧
    ∃ d via, Found Descriptor.defaults "/a/b.py" (some "#!/usr/bin/env -S python3.11") d via ∧
      ¬ Available pythonOff d := by
  have made : make Descriptor.defaults pythonOff =
      .ok { descriptors := Descriptor.defaults, settings := pythonOff } := rfl
  have chooses := resolve_chooses made rebinding
  refine ⟨_, made, ?bound, ?refused, ?fell⟩
  case bound =>
    exact ((chooses "/a/c" (some "ruby") none).1 _).1 rfl
  case refused =>
    exact ((chooses "/a/b.py" (some "ruby") none).2.1 _).1 rfl
  case fell =>
    have fell : (run { descriptors := Descriptor.defaults, settings := pythonOff } rebinding).resolve
        "/a/b.py" none (some "#!/usr/bin/env -S python3.11") =
          .ok ⟨"text", "1.0.0", "fallback:disabled", true⟩ := rfl
    have rejected := ((chooses "/a/b.py" none _).2.2 _ fell).2.1 rfl
    exact ⟨⟨_, fell, rfl, rfl⟩, rejected.2.2.1⟩

end Registry

end SourceSlices
