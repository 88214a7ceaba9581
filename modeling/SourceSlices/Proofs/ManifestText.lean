import Mathlib.Tactic.Common
import SourceSlices.Manifest
import SourceSlices.Proofs.ChunkWriting
import SourceSlices.Proofs.MetadataKeys
import SourceSlices.Proofs.PrettyText
import SourceSlices.Text.Utf8

/-!
The manifest is read back as it was written, as far as the last batch of each source goes. Numbers may
come back rounded, and a text that others have spoilt may not come back at all.
-/

/-!
### UTF-8

Text that is written as UTF-8 is read back as it was. The first byte of a character tells how many
follow, and the second one never looks like a longer way to write a shorter character.
-/
namespace SourceSlices.Text

/-! ### The bytes of a text -/

theorem toList_loop (bytes : ByteArray) (i : Nat) (read : List UInt8) :
    ByteArray.toList.loop bytes i read = read.reverse ++ bytes.data.toList.drop i := by
  fun_induction ByteArray.toList.loop bytes i read with
  | case1 i read inside ih =>
    have bound : i < bytes.data.toList.length := by simpa using inside
    have here : bytes.get! i = bytes.data.toList[i] := by simp [ByteArray.get!, inside]
    rw [ih, List.reverse_cons, List.append_assoc, List.singleton_append, here,
      ← List.drop_eq_getElem_cons bound]
  | case2 i read outside =>
    have none : bytes.data.toList.length ≤ i := by simpa using outside
    rw [List.drop_eq_nil_of_le none, List.append_nil]

theorem encodeUtf8_eq (s : String) : encodeUtf8 s = s.toList.flatMap String.utf8EncodeChar := by
  rw [encodeUtf8, ByteArray.toList, toList_loop, String.toUTF8, ← String.utf8Encode_toList,
    List.utf8Encode]
  simp

theorem toNat_byte {n : Nat} (small : n < 256) : (UInt8.ofNat n).toNat = n := by
  simp [UInt8.toNat_ofNat', Nat.mod_eq_of_lt small]

/-! ### One character -/

/-- A first byte of three: the second byte keeps away from shorter sequences and from surrogates. -/
theorem leadInfo_three {b n : Nat} (first : 0xe0 ≤ b) (last : b ≤ 0xef) (low : 0x80 ≤ n)
    (high : n ≤ 0xbf) (long : b = 0xe0 → 0xa0 ≤ n) (scalar : b = 0xed → n ≤ 0x9f) :
    ∃ lo hi, leadInfo b = some (lo, hi, 2) ∧ (n < lo || hi < n) = false := by
  unfold leadInfo
  split_ifs <;> first | omega | exact ⟨_, _, rfl, by simp; omega⟩

/-- A first byte of four: the second byte keeps away from shorter sequences and stays in range. -/
theorem leadInfo_four {b n : Nat} (first : 0xf0 ≤ b) (last : b ≤ 0xf4) (low : 0x80 ≤ n)
    (high : n ≤ 0xbf) (long : b = 0xf0 → 0x90 ≤ n) (scalar : b = 0xf4 → n ≤ 0x8f) :
    ∃ lo hi, leadInfo b = some (lo, hi, 3) ∧ (n < lo || hi < n) = false := by
  unfold leadInfo
  split_ifs <;> first | omega | exact ⟨_, _, rfl, by simp; omega⟩

theorem decodeOne_encoded (c : Char) (rest : List UInt8) :
    ∃ b tail, String.utf8EncodeChar c = b :: tail ∧
      decodeOne b.toNat (tail ++ rest) = (some c, tail.length + 1) := by
  have valid : c.val.toNat < 0xd800 ∨ 0xdfff < c.val.toNat ∧ c.val.toNat < 0x110000 := c.valid
  have own : Char.ofNat c.val.toNat = c := Char.ofNat_toNat c
  unfold String.utf8EncodeChar
  generalize c.val.toNat = v at valid own
  dsimp only
  -- One case for each number of bytes; from their bits the value is put together again.
  split_ifs with one two three
  · refine ⟨_, _, rfl, ?_⟩
    rw [toNat_byte (by omega), decodeOne, if_pos (by omega), own]
    rfl
  · refine ⟨_, _, rfl, ?_⟩
    have value : (v / 64 % 32 + 192 - 192) * 64 + (v % 64 + 128 - 128) = v := by omega
    rw [toNat_byte (by omega), decodeOne, if_neg (by omega), leadInfo, if_pos (by omega)]
    simp only [List.cons_append, List.nil_append, toNat_byte (show v % 64 + 128 < 256 by omega)]
    rw [if_neg (by simp; omega), value, own]
    rfl
  · refine ⟨_, _, rfl, ?_⟩
    obtain ⟨lo, hi, lead, inside⟩ := leadInfo_three (b := v / 4096 % 16 + 224)
      (n := v / 64 % 64 + 128) (by omega) (by omega) (by omega) (by omega) (by omega) (by omega)
    have value : (v / 4096 % 16 + 224 - 224) * 4096 + (v / 64 % 64 + 128 - 128) * 64 +
        (v % 64 + 128 - 128) = v := by omega
    rw [toNat_byte (by omega), decodeOne, if_neg (by omega), lead]
    simp only [List.cons_append, List.nil_append, toNat_byte (show v % 64 + 128 < 256 by omega),
      toNat_byte (show v / 64 % 64 + 128 < 256 by omega), inside]
    rw [if_neg (by simp), if_pos (by simp; omega), value, own]
    rfl
  · refine ⟨_, _, rfl, ?_⟩
    obtain ⟨lo, hi, lead, inside⟩ := leadInfo_four (b := v / 262144 % 8 + 240)
      (n := v / 4096 % 64 + 128) (by omega) (by omega) (by omega) (by omega) (by omega) (by omega)
    have value : (v / 262144 % 8 + 240 - 240) * 262144 + (v / 4096 % 64 + 128 - 128) * 4096 +
        (v / 64 % 64 + 128 - 128) * 64 + (v % 64 + 128 - 128) = v := by omega
    rw [toNat_byte (by omega), decodeOne, if_neg (by omega), lead]
    simp only [List.cons_append, List.nil_append, toNat_byte (show v % 64 + 128 < 256 by omega),
      toNat_byte (show v / 64 % 64 + 128 < 256 by omega),
      toNat_byte (show v / 4096 % 64 + 128 < 256 by omega), inside]
    rw [if_neg (by simp), if_pos (by simp; omega), if_pos (by simp; omega), value, own]
    rfl

/-! ### Texts -/

theorem decodeBytes_encoded (cs : List Char) {fuel : Nat}
    (enough : (cs.flatMap String.utf8EncodeChar).length ≤ fuel) :
    decodeBytes fuel (cs.flatMap String.utf8EncodeChar) = cs.map some := by
  induction cs generalizing fuel with
  | nil => cases fuel <;> rfl
  | cons c cs ih =>
    obtain ⟨b, tail, bytes, decoded⟩ := decodeOne_encoded c (cs.flatMap String.utf8EncodeChar)
    rw [List.flatMap_cons, bytes, List.cons_append] at enough ⊢
    rw [List.length_cons, List.length_append] at enough
    obtain ⟨fuel, rfl⟩ := Nat.exists_eq_succ_of_ne_zero (by omega : fuel ≠ 0)
    have less : (cs.flatMap String.utf8EncodeChar).length ≤ fuel := by omega
    simp only [decodeBytes, decoded, Nat.add_sub_cancel, List.drop_left, ih less, List.map_cons]

theorem decodeUtf8_encodeUtf8 (s : String) : decodeUtf8? (encodeUtf8 s) = some s := by
  have all : (s.toList.map some).mapM id = some s.toList :=
    Staging.mapM_some_iff.2 (List.map_id _)
  rw [decodeUtf8?, encodeUtf8_eq, decodeBytes_encoded _ (Nat.le_refl _), all, Option.map_some,
    String.ofList_toList]

end SourceSlices.Text

namespace SourceSlices

namespace Json

variable {α : Type} {key : String} {v w : Json} {others : SortedMap Json}

/-! ### Objects -/

/-- The member that an object begins with is the one that is taken out of what is read. -/
theorem takeMember_withMember (reads : ReadsAs (withMember key (some v) others) w)
    {found : Option Json} {rest : SortedMap Json} (taken : takeMember? key w = some (found, rest)) :
    ∃ v', found = some v' ∧ ReadsAs v v' := by
  cases reads with
  | @obj _ members' keys each =>
    cases members' with
    | nil => cases keys
    | cons e more =>
      obtain ⟨own, -⟩ := List.cons.inj keys
      obtain ⟨k, v'⟩ := e
      obtain rfl : k = key := own
      have first : ReadsAs v v' := by
        cases each with
        | cons first _ => exact first
      refine ⟨v', ?_, first⟩
      simp only [takeMember?, List.filter_cons, decide_true, if_true] at taken
      split at taken
      · rename_i none
        cases none
      · rename_i single
        obtain ⟨same, -⟩ := List.cons.inj single
        cases same
        cases taken
        rfl
      · cases taken

theorem entries_read (key : String) {β : Type} {write : α → Json} {read : Json → Option β}
    {entries : List (String × α)} {members : List (String × Json)} {made : List (String × β)}
    (keys : members.map Prod.fst = entries.map Prod.fst)
    (each : List.Forall₂ ReadsAs (entries.map fun e => write e.2) (members.map Prod.snd))
    (done : members.map (fun e => (read e.2).map (e.1, ·)) = made.map some) :
    made.map Prod.fst = entries.map Prod.fst ∧
      ∀ e, entries.find? (·.1 == key) = some e → ∃ e' w', made.find? (·.1 == key) = some e' ∧
        ReadsAs (write e.2) w' ∧ read w' = some e'.2 := by
  induction entries generalizing members made with
  | nil =>
    obtain rfl := List.map_eq_nil_iff.1 keys
    obtain rfl := List.map_eq_nil_iff.1 done.symm
    exact ⟨rfl, fun e found => by cases found⟩
  | cons e entries ih =>
    obtain ⟨x, members, rfl, name, keys⟩ := List.map_eq_cons_iff.1 keys
    obtain ⟨y, made, rfl, first, done⟩ := List.map_eq_cons_iff.1 done.symm
    obtain ⟨own, each⟩ := List.forall₂_cons.1 each
    obtain ⟨names, found⟩ := ih keys each done.symm
    obtain ⟨b, value, rfl⟩ := Option.map_eq_some_iff.1 first.symm
    refine ⟨by rw [List.map_cons, List.map_cons, names, name], fun e' here => ?_⟩
    simp only [List.find?_cons, name] at here ⊢
    split at here
    · cases here
      exact ⟨_, x.2, rfl, own, value⟩
    · exact found e' here

/-- What is read of a map has the same keys, each with what is read of its value. -/
theorem find?_map_ofMap {β : Type} {write : α → Json} {read : Json → Option β} {m : SortedMap α}
    {n : SortedMap β} (reads : ReadsAs (ofMap write m) w) (done : map? read w = some n) {a : α}
    (known : m.find? key = some a) :
    ∃ b w', n.find? key = some b ∧ ReadsAs (write a) w' ∧ read w' = some b := by
  cases reads with
  | @obj _ members keys each =>
    obtain ⟨made, listed, rfl⟩ := Option.map_eq_some_iff.1 done
    rw [List.map_map] at keys each
    obtain ⟨names, found⟩ := entries_read key keys each (Staging.mapM_some_iff.1 listed)
    obtain ⟨e, there, rfl⟩ := Option.map_eq_some_iff.1 known
    obtain ⟨e', w', here, reads, value⟩ := found e there
    have ascending : Ascending made :=
      List.pairwise_map.1 (names ▸ List.pairwise_map.2 m.ascending)
    refine ⟨e'.2, w', ?_, reads, value⟩
    rw [SortedMap.ofList, SortedMap.find?_foldl_insert ascending, here]
    rfl

/-! ### Records -/

/-- What only one field of a record changes keeps its value once that field has been read. -/
theorem setMembers_keeps {β : Type} {fields : List (RecordField α)} (column : α → β) {name : String}
    (others : ∀ f ∈ fields, f.name ≠ name → ∀ v a a', f.set v a = some a' → column a' = column a)
    {seen : List String} (read : name ∈ seen) {members : List (String × Json)} {a a' : α}
    (done : setMembers fields seen members a = some a') : column a' = column a := by
  induction members generalizing seen a with
  | nil =>
    cases done
    rfl
  | cons e rest ih =>
    obtain ⟨k, v⟩ := e
    simp only [setMembers] at done
    split at done
    · exact ih read done
    · rename_i f found
      split at done
      · cases done
      · rename_i new
        obtain ⟨b, set, done⟩ := Option.bind_eq_some_iff.1 done
        have own : f.name = k := by simpa using List.find?_some found
        have apart : f.name ≠ name := by
          rintro rfl
          exact new (List.contains_iff_mem.2 (own ▸ read))
        rw [ih (List.mem_cons_of_mem _ read) done,
          others f (List.mem_of_find?_eq_some found) apart v a b set]

theorem of_set {β : Type} {name : String} {read : Json → Option β} {put : β → α → α} {a a' : α}
    (done : (RecordField.of name read put).set v a = some a') :
    ∃ b, read v = some b ∧ a' = put b a := by
  obtain ⟨b, made, rfl⟩ := Option.map_eq_some_iff.1 done
  exact ⟨b, made, rfl⟩

theorem optStr_read {x y : Option String} (reads : ReadsAs (.optStr x) w)
    (done : optional? str? w = some y) : y = x := by
  cases x with
  | none =>
    cases reads
    cases done
    rfl
  | some s =>
    cases reads
    cases done
    rfl

end Json

open Json

variable {w : Json}

namespace RunState

theorem lastBatchId_of_set {f : RecordField RunState} (mem : f ∈ fields)
    (other : f.name ≠ "last_batch_id") {v : Json} {s s' : RunState} (done : f.set v s = some s') :
    s'.lastBatchId = s.lastBatchId := by
  simp only [fields, List.mem_cons, List.not_mem_nil, or_false] at mem
  obtain rfl | rfl | rfl | rfl | rfl | rfl | rfl | rfl | rfl | rfl | rfl := mem
  case inr.inl => exact absurd rfl other
  all_goals
    obtain ⟨x, -, rfl⟩ := of_set done
    rfl

theorem ofJson_lastBatchId {s s' : RunState} (reads : ReadsAs s.toJson w) (done : ofJson? w = some s') :
    s'.lastBatchId = s.lastBatchId := by
  cases reads with
  | @obj _ members keys each =>
    -- The first member tells whether the source is enabled, the second one names the last batch.
    obtain ⟨⟨k, v⟩, members, rfl, name, keys⟩ := List.map_eq_cons_iff.1 keys
    obtain ⟨⟨k', v'⟩, members, rfl, name', -⟩ := List.map_eq_cons_iff.1 keys
    obtain ⟨-, each⟩ := List.forall₂_cons.1 each
    obtain ⟨own, -⟩ := List.forall₂_cons.1 each
    obtain rfl : k = "enabled" := name
    obtain rfl : k' = "last_batch_id" := name'
    have first : fields.find? (·.name == "enabled") =
        some (.of "enabled" bool? fun b s => { s with enabled := b }) := rfl
    have second : fields.find? (·.name == "last_batch_id") =
        some (.of "last_batch_id" (optional? str?) fun x s => { s with lastBatchId := x }) := rfl
    have new : ["enabled"].contains "last_batch_id" = false := by decide
    simp only [ofJson?, record?, setMembers, first, second, new, List.contains_nil, Bool.false_eq_true,
      if_false, Option.bind_eq_some_iff] at done
    obtain ⟨s1, -, s2, set, done⟩ := done
    obtain ⟨x, named, rfl⟩ := of_set set
    have kept := setMembers_keeps lastBatchId
      (fun f mem other v a a' set => lastBatchId_of_set mem other set) List.mem_cons_self done
    exact kept.trans (optStr_read own named)

end RunState

namespace SourceEntry

theorem ofJson_state {e e' : SourceEntry} {s : RunState} (state : e.state = some s)
    (reads : ReadsAs e.toJson w) (done : ofJson? w = some e') :
    ∃ s', e'.state = some s' ∧ s'.lastBatchId = s.lastBatchId := by
  rw [toJson, state, Option.map_some] at reads
  rw [ofJson?, Option.bind_eq_bind, Option.bind_eq_some_iff] at done
  obtain ⟨⟨found, others⟩, taken, done⟩ := done
  obtain ⟨v, rfl, reads⟩ := takeMember_withMember reads taken
  obtain ⟨state', value, done⟩ := Option.bind_eq_some_iff.1 done
  cases done
  cases reads with
  | @obj _ members keys each =>
    obtain ⟨s', made, rfl⟩ := Option.map_eq_some_iff.1 value
    exact ⟨s', rfl, RunState.ofJson_lastBatchId (.obj keys each) made⟩

end SourceEntry

namespace Manifest

variable {m m' : Manifest} {source : String} {s : RunState}

theorem ofJson_state (known : m.state? source = some s) (reads : ReadsAs m.toJson w)
    (done : ofJson? w = some m') :
    ∃ s', m'.state? source = some s' ∧ s'.lastBatchId = s.lastBatchId := by
  rw [ofJson?, Option.bind_eq_bind, Option.bind_eq_some_iff] at done
  obtain ⟨⟨found, others⟩, taken, done⟩ := done
  obtain ⟨v, rfl, reads⟩ := takeMember_withMember reads taken
  obtain ⟨sources, value, done⟩ := Option.bind_eq_some_iff.1 done
  cases done
  obtain ⟨e, there, state⟩ := Option.bind_eq_some_iff.1 known
  obtain ⟨e', w', here, reads, entry⟩ := find?_map_ofMap reads value there
  obtain ⟨s', state', same⟩ := SourceEntry.ofJson_state state reads entry
  exact ⟨s', by rw [state?, here, Option.bind_some, state'], same⟩

theorem ofText_text_ok_iff : ofText m.text = .ok m' ↔ ∃ w, read m.text = .ok w ∧ ofJson? w = some m' := by
  have text : ∃ cs, m.text.toList = '\x7b' :: cs := ⟨_, block_toList "\x7b" rfl 0 _⟩
  obtain ⟨cs, text⟩ := text
  have solid : Text.isAllBlank m.text.toList = false := by
    rw [text]
    rfl
  simp only [ofText, solid, Bool.false_eq_true, if_false]
  cases read m.text with
  | error fault => simp
  | ok w => cases made : ofJson? w <;> simp [made]

/-- A manifest that can be read back names the last batch of each source as it did when it was
written. -/
theorem ofText_text (known : m.state? source = some s) (done : ofText m.text = .ok m') :
    ∃ s', m'.state? source = some s' ∧ s'.lastBatchId = s.lastBatchId := by
  obtain ⟨w, read, made⟩ := ofText_text_ok_iff.1 done
  exact ofJson_state known (read_pretty read) made

end Manifest

end SourceSlices
