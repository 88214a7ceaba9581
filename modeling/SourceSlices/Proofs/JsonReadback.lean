import SourceSlices.Manifest
import SourceSlices.Proofs.PrettyText

/-!
Written JSON is read. A text with one line per item and member is read exactly as each of its numbers is
read alone, if it is not nested too deep, and nothing that comes from a text is. Whole numbers of 64 bits
are read as they are, while a double need not be: all that is certain is that it does not become whole.
-/
namespace SourceSlices.Json

/-! ### Nesting -/

mutual

/-- How deep arrays and objects are nested. -/
def depth : Json → Nat
  | .arr items => depthItems items + 1
  | .obj members => depthMembers members + 1
  | _ => 0

def depthItems : List Json → Nat
  | [] => 0
  | v :: rest => max v.depth (depthItems rest)

def depthMembers : List (String × Json) → Nat
  | [] => 0
  | (_, v) :: rest => max v.depth (depthMembers rest)

end

theorem depthItems_le {items : List Json} {n : Nat} : depthItems items ≤ n ↔ ∀ v ∈ items, v.depth ≤ n := by
  induction items with
  | nil => simp [depthItems]
  | cons v rest ih => simp [depthItems, ih]

theorem depthMembers_le {members : List (String × Json)} {n : Nat} :
    depthMembers members ≤ n ↔ ∀ e ∈ members, e.2.depth ≤ n := by
  induction members with
  | nil => simp [depthMembers]
  | cons e rest ih => simp [depthMembers, ih]

/-! ### Written values are read -/

section Back

variable {fuel depth : Nat} {cs r : List Char} {w : Json}

theorem readValue_enough (done : readValue fuel depth cs = .ok (w, r)) :
    ∃ least, ∀ enough, least ≤ enough → readValue enough depth cs = .ok (w, r) := by
  obtain ⟨y, rfl, -, takes⟩ := (takes_all fuel).1 _ _ _ _ done
  exact ⟨2 * y.length + 1, fun enough le => takes enough le r (.inl rfl)⟩

theorem readItems_enough {first : Bool} {items : List Json}
    (done : readItems fuel depth first cs = .ok (items, r)) :
    ∃ least, ∀ enough, least ≤ enough → readItems enough depth first cs = .ok (items, r) := by
  obtain ⟨y, rfl, -, takes⟩ := (takes_all fuel).2.1 _ _ _ _ _ done
  exact ⟨2 * y.length + 2, fun enough le => takes enough le r⟩

theorem readMembers_enough {first : Bool} {members : List (String × Json)}
    (done : readMembers fuel depth first cs = .ok (members, r)) :
    ∃ least, ∀ enough, least ≤ enough → readMembers enough depth first cs = .ok (members, r) := by
  obtain ⟨y, rfl, -, takes⟩ := (takes_all fuel).2.2 _ _ _ _ _ done
  exact ⟨2 * y.length + 2, fun enough le => takes enough le r⟩

end Back

/-- A value that is read wherever it may stand. -/
def ValueBack (v : Json) : Prop := ∀ {w : Json} (n d : Nat) {r : List Char}, ReadsAs v w → v.depth ≤ n →
  EndsValue r → ∃ fuel, readValue fuel n ((v.prettyAt d).toList ++ r) = .ok (w, r)

def ItemsBack (items : List Json) : Prop :=
  ∀ {items' : List Json} (n d : Nat) (first : Bool) (r : List Char), List.Forall₂ ReadsAs items items' →
    depthItems items ≤ n → ∃ fuel, readItems fuel n first
      (bodyText first d ']' ((prettyItems (d + 1) items).map String.toList) ++ r) = .ok (items', r)

def MembersBack (members : List (String × Json)) : Prop :=
  ∀ {members' : List (String × Json)} (n d : Nat) (first : Bool) (r : List Char),
    members'.map Prod.fst = members.map Prod.fst →
      List.Forall₂ ReadsAs (members.map Prod.snd) (members'.map Prod.snd) → depthMembers members ≤ n →
      ∃ fuel, readMembers fuel n first
        (bodyText first d '\x7d' ((prettyMembers (d + 1) members).map String.toList) ++ r) = .ok (members', r)

theorem valueBack_numeric {s : String} (numeric : NumericText s) (some : s.toList ≠ []) {w : Json}
    (own : read s = .ok w) (n : Nat) {r : List Char} (ends : EndsValue r) :
    readValue 1 n (s.toList ++ r) = .ok (w, r) := by
  have alone := (read_numeric numeric some).1 own
  rw [← List.append_nil s.toList] at alone
  exact readValue_before numeric some alone trivial 0 n ends.stops

theorem valueBack_int (i : Int) : ValueBack (.int i) := by
  rintro w n d r (own : ReadsAs _ _) - ends
  cases own with
  | int own => exact ⟨1, valueBack_numeric (numericText_int i) (int_some i) own n ends⟩

theorem valueBack_null : ValueBack .null := by
  rintro w n d r own - -
  cases own
  exact ⟨1, by simp [prettyAt, readValue, skipSpace, isSpace, keyword]⟩

theorem valueBack_bool (b : Bool) : ValueBack (.bool b) := by
  intro w n d r own _ _
  cases own
  exact ⟨1, readValue_bool b 0 n r⟩

theorem valueBack_str (s : String) : ValueBack (.str s) := by
  intro w n d r own _ _
  cases own
  exact ⟨1, readValue_str s 0 n r⟩

theorem valueBack_float (x : Float) : ValueBack (.float x) := by
  rintro w n d r own - ends
  cases own with
  | float own =>
    rcases writeFloat_cases x with word | ⟨numeric, some⟩
    · rw [word, read_null] at own
      cases own
      rw [prettyAt, word]
      exact valueBack_null n d .null (Nat.zero_le n) ends
    · exact ⟨1, valueBack_numeric numeric some own n ends⟩

theorem itemsBack_nil : ItemsBack [] := by
  intro items' n d first r each _
  cases each
  exact ⟨1, readItems_stop (skipSpace_end first d r (by decide))⟩

theorem itemsBack_cons {v : Json} {rest : List Json} (value : ValueBack v) (more : ItemsBack rest) :
    ItemsBack (v :: rest) := by
  intro items' n d first r each deep
  cases each with
  | @cons _ w _ ws own others =>
    obtain ⟨here, later⟩ := Nat.max_le.1 deep
    obtain ⟨c, cs, text, solid, opens⟩ := prettyAt_head v (d + 1)
    have next := nextText_line first d ']' r
      (v.prettyAt (d + 1)).toList ((prettyItems (d + 1) rest).map String.toList)
    rw [text, List.cons_append, skipSpace_cons solid] at next
    obtain ⟨f, first'⟩ := value n (d + 1) own here
      (@endsValue_lines d ']' r ((prettyItems (d + 1) rest).map String.toList))
    obtain ⟨g, second⟩ := more n d false r others later
    obtain ⟨least, first'⟩ := readValue_enough first'
    obtain ⟨least', second⟩ := readItems_enough second
    have second : readItems (max least least') n false
        (linesText d ']' ((prettyItems (d + 1) rest).map String.toList) ++ r) = .ok (ws, r) :=
      second _ (Nat.le_max_right _ _)
    refine ⟨max least least' + 1, ?_⟩
    rw [prettyItems, List.map_cons, text, readItems_goOn next opens, ← List.cons_append, ← text, readItem,
      first' _ (Nat.le_max_left _ _)]
    simp only [bind, Except.bind, second]

theorem membersBack_nil : MembersBack [] := by
  intro members' n d first r keys _ _
  obtain rfl := List.map_eq_nil_iff.1 keys
  exact ⟨1, readMembers_stop (skipSpace_end first d r (by decide))⟩

theorem membersBack_cons {k : String} {v : Json} {rest : List (String × Json)} (value : ValueBack v)
    (more : MembersBack rest) : MembersBack ((k, v) :: rest) := by
  intro members' n d first r keys each deep
  obtain ⟨⟨k', w⟩, ws, rfl, name, same⟩ := List.map_eq_cons_iff.1 keys
  obtain rfl : k' = k := name
  obtain ⟨own, others⟩ := List.forall₂_cons.1 each
  obtain ⟨here, later⟩ := Nat.max_le.1 deep
  have text : (quote k' ++ ": " ++ v.prettyAt (d + 1)).toList =
      '"' :: (k'.toList.flatMap escapeChar ++ '"' :: ':' :: ' ' :: (v.prettyAt (d + 1)).toList) := by
    simp [quote_toList]
  have next := nextText_line first d '\x7d' r
    (quote k' ++ ": " ++ v.prettyAt (d + 1)).toList ((prettyMembers (d + 1) rest).map String.toList)
  rw [text, List.cons_append, skipSpace_cons (by decide), List.append_assoc, List.cons_append] at next
  obtain ⟨f, first'⟩ := value n (d + 1) own here
    (@endsValue_lines d '\x7d' r ((prettyMembers (d + 1) rest).map String.toList))
  obtain ⟨g, second⟩ := more n d false r same others later
  obtain ⟨least, first'⟩ := readValue_enough first'
  obtain ⟨least', second⟩ := readMembers_enough second
  have second : readMembers (max least least' + 1) n false
      (linesText d '\x7d' ((prettyMembers (d + 1) rest).map String.toList) ++ r) = .ok (ws, r) :=
    second _ (Nat.le_succ_of_le (Nat.le_max_right _ _))
  -- the blank behind the colon does not matter
  have first' : readValue (max least least' + 1) n (' ' :: ((v.prettyAt (d + 1)).toList ++
      (linesText d '\x7d' ((prettyMembers (d + 1) rest).map String.toList) ++ r))) =
        .ok (w, linesText d '\x7d' ((prettyMembers (d + 1) rest).map String.toList) ++ r) := by
    rw [← readValue_skip, ← List.singleton_append,
      skipSpace_blanks (List.forall_mem_singleton.2 rfl), readValue_skip]
    exact first' _ (Nat.le_succ_of_le (Nat.le_max_left _ _))
  refine ⟨max least least' + 2, ?_⟩
  rw [prettyMembers, List.map_cons, text, readMembers_goOn next, readMember, readString_quoted]
  simp only [bind, Except.bind, List.cons_append, skipSpace_cons (show isSpace ':' = false by decide),
    first', second]

theorem valueBack_arr {items : List Json} (each : ItemsBack items) : ValueBack (.arr items) := by
  intro w n d r own deep _
  cases own with
  | arr reads =>
    obtain ⟨n, rfl⟩ := Nat.exists_eq_succ_of_ne_zero (by simp only [Json.depth] at deep; omega : n ≠ 0)
    obtain ⟨fuel, inner⟩ := each n d true r reads (Nat.le_of_succ_le_succ deep)
    refine ⟨fuel + 1, ?_⟩
    rw [prettyAt, block_toList "[" (c := ']') rfl, show "[".toList = ['['] from rfl, List.singleton_append,
      List.cons_append, readValue, skipSpace_cons (by decide)]
    simp only [bind, Except.bind, inner]

theorem valueBack_obj {members : List (String × Json)} (each : MembersBack members) :
    ValueBack (.obj members) := by
  intro w n d r own deep _
  cases own with
  | obj keys reads =>
    obtain ⟨n, rfl⟩ := Nat.exists_eq_succ_of_ne_zero (by simp only [Json.depth] at deep; omega : n ≠ 0)
    obtain ⟨fuel, inner⟩ := each n d true r keys reads (Nat.le_of_succ_le_succ deep)
    refine ⟨fuel + 1, ?_⟩
    rw [prettyAt, block_toList "\x7b" (c := '\x7d') rfl, show "\x7b".toList = ['\x7b'] from rfl,
      List.singleton_append, List.cons_append, readValue, skipSpace_cons (by decide)]
    simp only [bind, Except.bind, inner]

mutual

theorem valueBack : (v : Json) → ValueBack v
  | .null => valueBack_null
  | .bool b => valueBack_bool b
  | .int i => valueBack_int i
  | .float x => valueBack_float x
  | .str s => valueBack_str s
  | .arr items => valueBack_arr (itemsBack items)
  | .obj members => valueBack_obj (membersBack members)

theorem itemsBack : (items : List Json) → ItemsBack items
  | [] => itemsBack_nil
  | v :: rest => itemsBack_cons (valueBack v) (itemsBack rest)

theorem membersBack : (members : List (String × Json)) → MembersBack members
  | [] => membersBack_nil
  | (_, v) :: rest => membersBack_cons (valueBack v) (membersBack rest)

end

/-- A value that is not nested too deep is read exactly as its numbers are read. -/
theorem read_pretty_iff {v w : Json} (deep : v.depth ≤ maxDepth) : read v.pretty = .ok w ↔ ReadsAs v w := by
  refine ⟨read_pretty, fun reads => ?_⟩
  obtain ⟨fuel, done⟩ := valueBack v maxDepth 0 reads deep (r := []) fun c mem => nomatch mem
  obtain ⟨y, same, -, takes⟩ := (takes_all fuel).1 _ _ _ _ done
  obtain rfl := List.append_cancel_right same
  have own := takes (2 * (v.prettyAt 0).toList.length + 2) (by omega) [] (.inl rfl)
  rw [List.append_nil] at own
  simp only [read, pretty, own, bind, Except.bind]
  rfl

/-! ### Numbers -/

theorem read_nat {n : Nat} (small : n ≤ maxWord) : read (toString (n : Int)) = .ok (.int n) := by
  have alone : readValue 1 0 ((toString (n : Int)).toList ++ []) = .ok (.int n, []) := by
    rw [readValue_number, Int.natAbs_natCast, readNumber_toDigits (show Stops [] from trivial) _ small,
      afterWhole_stops (show Stops [] from trivial)]
    have positive : ¬ (n : Int) < 0 := by omega
    simp only [positive, decide_false, Bool.false_eq_true, if_false]
  rw [List.append_nil] at alone
  exact (read_numeric (numericText_int n) (int_some n)).2 alone

theorem writeFloat_pointed (x : Float) : writeFloat x = "null" ∨ Decimal.Pointed (writeFloat x) := by
  unfold writeFloat
  split
  · exact .inr (Decimal.pointed_format rfl x)
  · exact .inl rfl

/-- What is read of a double is no whole number. -/
theorem read_writeFloat {x : Float} {w : Json} (done : read (writeFloat x) = .ok w) :
    w = .null ∨ w.IsFloat := by
  rcases writeFloat_pointed x with word | ⟨p, mem, point⟩
  · rw [word, read_null] at done
    cases done
    exact .inl rfl
  rcases writeFloat_cases x with word | ⟨numeric, some⟩
  · rw [word, read_null] at done
    cases done
    exact .inl rfl
  right
  have own := (read_numeric numeric some).1 done
  obtain ⟨c, cs, text⟩ := List.exists_cons_of_ne_nil some
  have mark : p.isDigit = false ∧ p ≠ '-' := by
    rcases point with rfl | rfl <;> decide
  rw [text] at own mem
  rw [readValue_sign (numeric c (text ▸ List.mem_cons_self))] at own
  -- only digits are read as a whole number
  split at own
  · rename_i minus
    obtain ⟨-, float | ⟨⟨y, split, digits⟩, -⟩⟩ := readNumber_numeric own
    · exact float
    · rw [List.append_nil] at split
      subst split
      rcases List.mem_cons.1 mem with rfl | mem
      · exact absurd minus mark.2
      · rw [digits p mem] at mark
        cases mark.1
  · split at own
    · obtain ⟨-, float | ⟨⟨y, split, digits⟩, -⟩⟩ := readNumber_numeric own
      · exact float
      · rw [List.append_nil] at split
        rw [digits p (split ▸ mem)] at mark
        cases mark.1
    · cases own

/-- A double that is read as it was written. -/
def Echoes (x : Float) : Prop := read (writeFloat x) = .ok (.float x)

def readDouble? (s : String) : Option Float :=
  match read s with
  | .ok (.float x) => some x
  | _ => none

theorem echoes_iff {x : Float} : Echoes x ↔ readDouble? (writeFloat x) = some x := by
  unfold Echoes readDouble?
  constructor
  · intro same
    rw [same]
  · intro same
    split at same
    · rename_i own
      rw [own, Option.some.inj same]
    · cases same

instance (x : Float) : Decidable (Echoes x) := decidable_of_iff _ echoes_iff.symm

/-! ### Nesting of what is read -/

theorem keyword_value {value v : Json} {ks cs r : List Char} (done : keyword value ks cs = .ok (v, r)) :
    v = value := by
  induction ks generalizing cs with
  | nil =>
    cases done
    rfl
  | cons k ks ih =>
    cases cs with
    | nil => cases done
    | cons c cs =>
      simp only [keyword] at done
      split at done
      · exact ih done
      · cases done

theorem depth_number {negative : Bool} {cs r : List Char} {v : Json}
    (done : readNumber negative cs = .ok (v, r)) : v.depth = 0 := by
  obtain ⟨-, float | ⟨-, word⟩⟩ := readNumber_numeric done
  · cases v <;> first | rfl | cases float
  · cases v <;> first | rfl | cases word

/-- Nothing is read in this many steps that is nested deeper than is allowed. -/
structure Shallow (fuel : Nat) : Prop where
  values : ∀ {depth cs v r}, readValue fuel depth cs = .ok (v, r) → v.depth ≤ depth
  items : ∀ {depth first cs items r}, readItems fuel depth first cs = .ok (items, r) →
    depthItems items ≤ depth
  members : ∀ {depth first cs members r}, readMembers fuel depth first cs = .ok (members, r) →
    depthMembers members ≤ depth

namespace Shallow

variable {fuel depth : Nat} {cs r : List Char}

theorem value_succ (shallow : Shallow fuel) {v : Json} (done : readValue (fuel + 1) depth cs = .ok (v, r)) :
    v.depth ≤ depth := by
  rw [readValue] at done
  split at done
  · cases done
  · exact keyword_value done ▸ Nat.zero_le _
  · exact keyword_value done ▸ Nat.zero_le _
  · exact keyword_value done ▸ Nat.zero_le _
  · exact depth_number done ▸ Nat.zero_le _
  · simp only [bind_ok_iff] at done
    obtain ⟨_, -, done⟩ := done
    cases done
    exact Nat.zero_le _
  · split at done
    · cases done
    · simp only [bind_ok_iff] at done
      obtain ⟨_, inner, done⟩ := done
      cases done
      exact Nat.succ_le_succ (shallow.items inner)
  · split at done
    · cases done
    · simp only [bind_ok_iff] at done
      obtain ⟨_, inner, done⟩ := done
      cases done
      exact Nat.succ_le_succ (shallow.members inner)
  · split at done
    · exact depth_number done ▸ Nat.zero_le _
    · cases done

theorem items_succ (shallow : Shallow fuel) {first : Bool} {items : List Json}
    (done : readItems (fuel + 1) depth first cs = .ok (items, r)) : depthItems items ≤ depth := by
  rcases readItems_cases done with ⟨-, rfl⟩ | ⟨c, rest, -, -, done⟩
  · exact Nat.zero_le _
  · simp only [readItem, bind_ok_iff] at done
    obtain ⟨_, own, _, others, done⟩ := done
    cases done
    exact Nat.max_le.2 ⟨shallow.values own, shallow.items others⟩

theorem members_succ (shallow : Shallow fuel) {first : Bool} {members : List (String × Json)}
    (done : readMembers (fuel + 1) depth first cs = .ok (members, r)) : depthMembers members ≤ depth := by
  rcases readMembers_cases done with ⟨-, rfl⟩ | ⟨rest, -, done⟩
  · exact Nat.zero_le _
  · unfold readMember at done
    simp only [bind_ok_iff] at done
    obtain ⟨_, -, done⟩ := done
    split at done
    · cases done
    · simp only [bind_ok_iff] at done
      obtain ⟨_, own, _, others, done⟩ := done
      cases done
      exact Nat.max_le.2 ⟨shallow.values own, shallow.members others⟩
    · cases done

end Shallow

theorem shallow (fuel : Nat) : Shallow fuel := by
  induction fuel with
  | zero => exact ⟨fun done => (by cases done), fun done => (by cases done), fun done => (by cases done)⟩
  | succ fuel ih => exact ⟨ih.value_succ, ih.items_succ, ih.members_succ⟩

theorem depth_read {text : String} {v : Json} (done : read text = .ok v) : v.depth ≤ maxDepth := by
  simp only [read, bind_ok_iff] at done
  obtain ⟨⟨w, rest⟩, own, done⟩ := done
  dsimp only at done
  split at done
  · cases done
    exact (shallow _).values own
  · cases done

end SourceSlices.Json
