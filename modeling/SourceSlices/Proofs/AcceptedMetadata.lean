import SourceSlices.Proofs.ForeignMembers

/-!
The texts that are read as metadata: objects whose values are truth values, numbers of 64 bits, texts and
lists of texts, with any blanks and members in any order. The canonical text is one of them, from which
each value comes back as what it was.
-/
namespace SourceSlices

namespace MetaValue

variable {items : List Json} {texts : List String} {j : Json} {v : MetaValue}

theorem strings?_iff : strings? items = some texts ↔ items = texts.map .str := by
  constructor
  · intro done
    induction items generalizing texts with
    | nil =>
      cases done
      rfl
    | cons item rest ih =>
      cases item with
      | str s =>
        obtain ⟨others, more, rfl⟩ := Option.map_eq_some_iff.1 done
        rw [List.map_cons, ih more]
      | _ => cases done
  · rintro rfl
    exact strings_map texts

/-- Which value is meant can be told from its JSON alone. -/
theorem ofJson?_iff : ofJson? j = some v ↔ v.Fits ∧ j = v.toJson := by
  constructor
  · intro done
    cases j with
    | bool b =>
      cases done
      exact ⟨trivial, rfl⟩
    | int i =>
      rw [ofJson?] at done
      split at done
      · rename_i small
        cases done
        exact ⟨small, rfl⟩
      · cases done
    | str s =>
      cases done
      exact ⟨trivial, rfl⟩
    | arr items =>
      obtain ⟨texts, each, rfl⟩ := Option.map_eq_some_iff.1 done
      exact ⟨trivial, congrArg Json.arr (strings?_iff.1 each)⟩
    | _ => cases done
  · rintro ⟨small, rfl⟩
    exact ofJson_toJson small

end MetaValue

instance : (v : MetaValue) → Decidable v.Fits
  | .int i => inferInstanceAs (Decidable (MetaValue.fits i = true))
  | .bool _ => inferInstanceAs (Decidable True)
  | .str _ => inferInstanceAs (Decidable True)
  | .list _ => inferInstanceAs (Decidable True)

namespace Metadata

instance (m : Metadata) : Decidable m.Fits := inferInstanceAs (Decidable (∀ e ∈ m.entries, e.2.Fits))

/-- The members of an object that holds those entries. -/
def members (entries : List (String × MetaValue)) : List (String × Json) :=
  entries.map fun e => (e.1, e.2.toJson)

/-- Puts entries into a map one after the other. -/
def putAll (m : Metadata) (entries : List (String × MetaValue)) : Metadata :=
  entries.foldl (fun m e => m.put e.1 e.2) m

variable {fuel depth : Nat} {first : Bool} {m n : Metadata} {cs rest : List Char} {text : String}

theorem readMember_ok_iff {key : String} :
    readMember fuel m key cs = .ok (n, rest) ↔ ∃ (v : MetaValue) (behind : List Char), v.Fits ∧
      Json.readValue (2 * cs.length + 2) (Json.maxDepth - 1) cs = .ok (v.toJson, behind) ∧
      readMembers fuel false (m.put key v) behind = .ok (n, rest) := by
  unfold readMember
  constructor
  · intro done
    split at done
    · cases done
    · rename_i j behind own
      split at done
      · cases done
      · rename_i v value
        obtain ⟨small, rfl⟩ := MetaValue.ofJson?_iff.1 value
        exact ⟨v, behind, small, own, done⟩
  · rintro ⟨v, behind, small, own, done⟩
    simp only [own, MetaValue.ofJson_toJson small]
    exact done

theorem readEntry_ok_iff :
    readEntry fuel m cs = .ok (n, rest) ↔ ∃ (key : String) (behind value : List Char),
      Json.readString cs = .ok (key, behind) ∧ Json.skipSpace behind = ':' :: value ∧
      readMember fuel m key value = .ok (n, rest) := by
  unfold readEntry
  constructor
  · intro done
    split at done
    · cases done
    · rename_i key behind own
      split at done
      · cases done
      · rename_i value colon
        exact ⟨key, behind, value, own, colon, done⟩
      · cases done
  · rintro ⟨key, behind, value, own, colon, done⟩
    simp only [own, colon]
    exact done

end Metadata

namespace Json

variable {fuel depth : Nat} {cs rest : List Char} {xs : List (String × Json)}

theorem readMember_ok_iff :
    readMember fuel depth cs = .ok (xs, rest) ↔
      ∃ (key : String) (behind value : List Char) (v : Json) (later : List Char)
        (others : List (String × Json)),
        readString cs = .ok (key, behind) ∧ skipSpace behind = ':' :: value ∧
        readValue fuel depth value = .ok (v, later) ∧
        readMembers fuel depth false later = .ok (others, rest) ∧ xs = (key, v) :: others := by
  unfold readMember
  simp only [bind_ok_iff]
  constructor
  · rintro ⟨⟨key, behind⟩, own, done⟩
    dsimp only at done
    split at done
    · cases done
    · rename_i value colon
      simp only [bind_ok_iff] at done
      obtain ⟨⟨v, later⟩, read, ⟨others, last⟩, more, done⟩ := done
      cases done
      exact ⟨key, behind, value, v, later, others, own, colon, read, more, rfl⟩
    · cases done
  · rintro ⟨key, behind, value, v, later, others, own, colon, read, more, rfl⟩
    refine ⟨(key, behind), own, ?_⟩
    simp only [colon, read, more, bind, Except.bind]

theorem readValue_obj_iff : readValue (fuel + 1) depth cs = .ok (.obj xs, rest) ↔
    ∃ inner behind, depth = inner + 1 ∧ skipSpace cs = '\x7b' :: behind ∧
      readMembers fuel inner true behind = .ok (xs, rest) := by
  rw [readValue]
  constructor
  · -- Only a brace begins an object; every other first character gives another value, or none.
    intro done
    split at done
    · cases done
    · cases keyword_value done
    · cases keyword_value done
    · cases keyword_value done
    · cases depth_number done
    · simp only [bind_ok_iff] at done
      obtain ⟨_, -, done⟩ := done
      cases done
    · split at done
      · cases done
      · simp only [bind_ok_iff] at done
        obtain ⟨_, -, done⟩ := done
        cases done
    · rename_i behind begins
      split at done
      · cases done
      · rename_i inner
        simp only [bind_ok_iff] at done
        obtain ⟨_, members, done⟩ := done
        cases done
        exact ⟨inner, behind, rfl, begins, members⟩
    · split at done
      · cases depth_number done
      · cases done
  · rintro ⟨inner, behind, rfl, begins, members⟩
    simp only [begins, members, bind, Except.bind]

theorem read_obj_iff {text : String} : read text = .ok (.obj xs) ↔
    ∃ behind rest fuel, skipSpace text.toList = '\x7b' :: behind ∧
      readMembers fuel (maxDepth - 1) true behind = .ok (xs, rest) ∧ skipSpace rest = [] := by
  simp only [read, bind_ok_iff]
  constructor
  · rintro ⟨⟨v, rest⟩, own, done⟩
    dsimp only at done
    split at done
    · rename_i blank
      cases done
      obtain ⟨inner, behind, depth, begins, members⟩ := readValue_obj_iff.1 own
      obtain rfl : inner = maxDepth - 1 := (Nat.sub_eq_of_eq_add depth).symm
      exact ⟨behind, rest, _, begins, members, List.isEmpty_iff.1 blank⟩
    · cases done
  · rintro ⟨behind, rest, fuel, begins, members, blank⟩
    have own := readValue_obj_iff.2 ⟨maxDepth - 1, behind, rfl, begins, members⟩
    obtain ⟨y, whole, -, takes⟩ := (takes_all _).1 _ _ _ _ own
    refine ⟨(.obj xs, rest), ?_, by simp only [blank]; rfl⟩
    rw [whole]
    exact takes _ (by rw [List.length_append]; omega) rest (.inl rfl)

end Json

namespace Metadata

variable {fuel depth : Nat} {first : Bool} {m n : Metadata} {cs rest : List Char} {text : String}

/-- Members that are put into a map as they are read are those of an object. -/
theorem members_of_readMembers (done : readMembers fuel first m cs = .ok (n, rest)) :
    ∃ entries, (∀ e ∈ entries, e.2.Fits) ∧ n = m.putAll entries ∧
      ∃ fuel, Json.readMembers fuel (Json.maxDepth - 1) first cs = .ok (members entries, rest) := by
  induction fuel generalizing first m cs with
  | zero => cases done
  | succ fuel ih =>
    rcases readMembers_cases done with ⟨closed, rfl⟩ | ⟨behind, begins, entry⟩
    · exact ⟨[], by simp, rfl, 1, Json.readMembers_stop closed⟩
    · obtain ⟨key, _, _, own, colon, member⟩ := readEntry_ok_iff.1 entry
      obtain ⟨v, _, small, value, more⟩ := readMember_ok_iff.1 member
      obtain ⟨entries, others, rfl, _, later⟩ := ih more
      obtain ⟨least, value⟩ := Json.readValue_enough value
      obtain ⟨least', later⟩ := Json.readMembers_enough later
      refine ⟨(key, v) :: entries, List.forall_mem_cons.2 ⟨small, others⟩, rfl, max least least' + 1, ?_⟩
      rw [Json.readMembers_goOn begins]
      exact Json.readMember_ok_iff.2 ⟨key, _, _, _, _, _, own, colon, value _ (Nat.le_max_left _ _),
        later _ (Nat.le_max_right _ _), rfl⟩

theorem readMembers_of_members {entries : List (String × MetaValue)} (small : ∀ e ∈ entries, e.2.Fits)
    (done : Json.readMembers fuel (Json.maxDepth - 1) first cs = .ok (members entries, rest)) :
    ∃ fuel, readMembers fuel first m cs = .ok (m.putAll entries, rest) := by
  induction fuel generalizing first m cs entries with
  | zero => cases done
  | succ fuel ih =>
    rcases Json.readMembers_cases done with ⟨closed, none⟩ | ⟨_, begins, member⟩
    · obtain rfl : entries = [] := List.map_eq_nil_iff.1 none
      exact ⟨1, readMembers_stop closed⟩
    · obtain ⟨_, _, _, _, _, _, own, colon, read, more, same⟩ := Json.readMember_ok_iff.1 member
      obtain ⟨⟨_, v⟩, entries, rfl, named, rfl⟩ := List.map_eq_cons_iff.1 same
      obtain ⟨rfl, rfl⟩ := Prod.mk.inj named
      obtain ⟨fits, small⟩ := List.forall_mem_cons.1 small
      obtain ⟨budget, later⟩ := ih (m := m.put _ v) small more
      obtain ⟨y, rfl, -, takes⟩ := (Json.takes_all _).1 _ _ _ _ read
      refine ⟨budget + 1, ?_⟩
      rw [readMembers_goOn begins]
      refine readEntry_ok_iff.2 ⟨_, _, _, own, colon, readMember_ok_iff.2 ⟨v, _, fits, ?_, later⟩⟩
      exact takes _ (by rw [List.length_append]; omega) _ (.inl rfl)

theorem read_iff_members : read text = .ok m ↔ ∃ behind rest, Json.skipSpace text.toList = '\x7b' :: behind ∧
    readMembers (text.toList.length + 1) true empty behind = .ok (m, rest) ∧ Json.skipSpace rest = [] := by
  unfold read
  dsimp only
  constructor
  · intro done
    split at done
    · cases done
    · rename_i behind begins
      simp only [bind_ok_iff] at done
      obtain ⟨⟨n, rest⟩, members, done⟩ := done
      dsimp only at done
      split at done
      · rename_i blank
        cases done
        exact ⟨behind, rest, begins, members, List.isEmpty_iff.1 blank⟩
      · cases done
    · cases done
    · simp only [bind_ok_iff] at done
      obtain ⟨_, -, done⟩ := done
      cases done
  · rintro ⟨behind, rest, begins, members, blank⟩
    simp only [begins, members, blank, bind, Except.bind]
    rfl

/-- Metadata is read from the texts of objects whose values are values of metadata. Of several members of
one name the last one counts. -/
theorem read_ok_iff : read text = .ok m ↔ ∃ entries, Json.read text = .ok (.obj (members entries)) ∧
    (∀ e ∈ entries, e.2.Fits) ∧ m = ofList entries := by
  rw [read_iff_members]
  constructor
  · rintro ⟨behind, rest, begins, done, blank⟩
    obtain ⟨entries, small, rfl, fuel, object⟩ := members_of_readMembers done
    exact ⟨entries, Json.read_obj_iff.2 ⟨behind, rest, fuel, begins, object, blank⟩, small, rfl⟩
  · rintro ⟨entries, object, small, rfl⟩
    obtain ⟨behind, rest, fuel, begins, object, blank⟩ := Json.read_obj_iff.1 object
    obtain ⟨least, done⟩ := readMembers_of_members (m := empty) small object
    obtain ⟨y, rfl, takes⟩ := readMembers_takes done
    obtain ⟨-, z, whole, -⟩ := Json.skipSpace_split begins
    refine ⟨_, rest, begins, ?_, blank⟩
    rw [← List.singleton_append, ← List.append_assoc]
    refine takes _ ?_ rest
    simp only [whole, List.length_append, List.length_cons]
    omega

theorem fits_ofList {entries : List (String × MetaValue)} (small : ∀ e ∈ entries, e.2.Fits) :
    (ofList entries).Fits := by
  intro e mem
  exact small e (SortedMap.mem_ofList mem)

theorem read_canonical_of_read (done : read text = .ok m) : read m.canonical = .ok m := by
  obtain ⟨entries, -, small, rfl⟩ := read_ok_iff.1 done
  exact read_canonical (fits_ofList small)

theorem canonical_inj (small : m.Fits) : m.canonical = n.canonical ↔ m = n := by
  constructor
  · intro same
    have back := read_canonical small
    rw [same, read_canonical_iff] at back
    exact back.2
  · rintro rfl
    rfl

/-- Metadata whose numbers have 64 bits is read back from its canonical text, which no other map has. What
is read from other texts is such metadata too: they are objects whose values are truth values, numbers of
64 bits, texts and lists of texts. -/
theorem text_faithful (m n : Metadata) (text : String) :
    (read m.canonical = .ok m ↔ m.Fits) ∧
    (m.Fits → n.Fits → (m.canonical = n.canonical ↔ m = n)) ∧
    (read text = .ok m → read m.canonical = .ok m) ∧
    (read text = .ok m ↔ ∃ entries, Json.read text = .ok (.obj (members entries)) ∧
      (∀ e ∈ entries, e.2.Fits) ∧ m = ofList entries) := by
  refine ⟨?_, fun small _ => canonical_inj small, read_canonical_of_read, read_ok_iff⟩
  rw [read_canonical_iff]
  exact and_iff_left rfl

/-- Values that look alike, and characters that cannot stand for themselves. -/
def lookalikes : Metadata :=
  ofList [("\"\\\n\x01é", .str "\"\\\n\x01é"), ("bool", .bool true), ("int", .int MetaValue.intMin),
    ("list", .list []), ("lists", .list ["1", ""]), ("str", .str "true")]

/-- The same in another way: with blanks, escapes and a member that does not count. -/
def respelled : String :=
  "\x7b \"str\" : \"tru\\u0065\", \"int\" : -9223372036854775808, \"lists\" : [ \"1\" , \"\" ],\n\"bool\" : 0," ++
    " \"\\\"\\\\\\n\\u0001\\u00e9\" : \"\\\"\\\\\\u000A\\u0001é\", \"bool\" : true, \"list\" : [] \x7d"

theorem lookalikes_faithful : lookalikes.Fits ∧ empty.Fits ∧ read lookalikes.canonical = .ok lookalikes ∧
    lookalikes.canonical ≠ empty.canonical ∧ read respelled = .ok lookalikes ∧
    respelled ≠ lookalikes.canonical := by
  have small : lookalikes.Fits := by decide +kernel
  have other : read respelled = .ok lookalikes := by decide +kernel
  obtain ⟨-, same, back, -⟩ := text_faithful lookalikes empty respelled
  refine ⟨small, by decide, back other, ?_, other, by decide +kernel⟩
  rw [Ne, same small (by decide)]
  decide +kernel

end Metadata

end SourceSlices
