import SourceSlices.Proofs.DedentedText
import SourceSlices.Proofs.ManifestText
import SourceSlices.Proofs.SymbolRows

/-!
Digests of contents: what they pass over and what they tell apart. Texts that differ in their line ends,
and in the blanks around them, are normalised alike, so that their normalised digests are alike as well.
Version, salts and text can be read off the bytes that a digest is made from, so that the row of a symbol
is kept only for the text and the version that it was written with.
-/
namespace SourceSlices

namespace Text

/-! ### Blanks around a text -/

theorem trim_padded {before after : List Char} (cs : List Char)
    (first : ∀ c ∈ before, isBlank c = true) (last : ∀ c ∈ after, isBlank c = true) :
    trim (before ++ cs ++ after) = trim cs := by
  obtain ⟨a, kept, b, rfl, first', last', head, foot⟩ := exists_between isBlank cs
  have around : before ++ (a ++ kept ++ b) ++ after = (before ++ a) ++ kept ++ (b ++ after) := by
    simp only [List.append_assoc]
  rw [around, trim, trim, trimWhere_between first' last' head foot]
  refine trimWhere_between ?_ ?_ head foot
  · exact List.forall_mem_append.2 ⟨first, first'⟩
  · exact List.forall_mem_append.2 ⟨last', last⟩

theorem trim_spec (cs : List Char) : trim cs ⊆ cs ∧ (∀ c ∈ (trim cs).head?, isBlank c = false) ∧
    ∀ c ∈ (trim cs).getLast?, isBlank c = false := by
  obtain ⟨before, kept, after, rfl, first, last, head, foot⟩ := exists_between isBlank cs
  rw [trim, trimWhere_between first last head foot]
  exact ⟨fun c mem => by simp [mem], head, foot⟩

/-! ### Line ends -/

/-- Carriage returns before line feeds are removed. -/
def joinEnds : List Char → List Char
  | [] => []
  | '\r' :: '\n' :: cs => '\n' :: joinEnds cs
  | c :: cs => c :: joinEnds cs

/-- What is unified in one walk can be replaced in two. -/
theorem unifyLineEnds_passes (cs : List Char) :
    unifyLineEnds cs = replaceChar '\r' '\n' (joinEnds cs) := by
  induction cs using unifyLineEnds.induct with
  | case1 => rfl
  | case2 cs ih =>
    rw [unifyLineEnds, joinEnds, ih]
    rfl
  | case3 c cs other ih =>
    rw [unifyLineEnds.eq_3 c cs other, joinEnds.eq_3 c cs other, ih]
    rfl

/-- Line ends are unified on both sides of a seam, unless it lies inside of one. -/
theorem unifyLineEnds_append (a b : List Char) :
    unifyLineEnds (a ++ b) = unifyLineEnds a ++ unifyLineEnds b ∨
      ∃ rest, b = '\n' :: rest ∧ unifyLineEnds (a ++ b) = unifyLineEnds a ++ unifyLineEnds rest := by
  induction a using unifyLineEnds.induct with
  | case1 => exact Or.inl rfl
  | case2 a ih =>
    simp only [List.cons_append, unifyLineEnds, List.cons.injEq, true_and]
    exact ih
  | case3 c a other ih =>
    by_cases inside : c = '\r' ∧ ∃ rest, a ++ b = '\n' :: rest
    · obtain ⟨rfl, rest, same⟩ := inside
      cases a with
      | nil => exact Or.inr ⟨rest, same, by rw [List.nil_append] at same; subst same; rfl⟩
      | cons d a =>
        obtain ⟨rfl, -⟩ := List.cons.inj same
        exact absurd rfl (other a rfl)
    · have apart : ∀ rest, c = '\r' → a ++ b = '\n' :: rest → False :=
        fun rest own same => inside ⟨own, rest, same⟩
      rw [List.cons_append, unifyLineEnds.eq_3 c (a ++ b) apart, unifyLineEnds.eq_3 c a other]
      simp only [List.cons_append, List.cons.injEq, true_and]
      exact ih

theorem blank_unifyLineEnds {cs : List Char} (blank : ∀ c ∈ cs, isBlank c = true) :
    ∀ c ∈ unifyLineEnds cs, isBlank c = true := by
  rw [← solids_eq_nil_iff, solids_unifyLineEnds, solids_eq_nil_iff]
  exact blank

theorem trim_unify_after {before : List Char} (cs : List Char)
    (blank : ∀ c ∈ before, isBlank c = true) :
    trim (unifyLineEnds (before ++ cs)) = trim (unifyLineEnds cs) := by
  have cut (first rest : List Char) (blank : ∀ c ∈ first, isBlank c = true) :
      trim (first ++ rest) = trim rest := by
    have none : ∀ c ∈ ([] : List Char), isBlank c = true := by simp
    simpa using trim_padded rest blank none
  rcases unifyLineEnds_append before cs with apart | ⟨rest, rfl, joined⟩
  · rw [apart, cut _ _ (blank_unifyLineEnds blank)]
  · have feed : unifyLineEnds ('\n' :: rest) = ['\n'] ++ unifyLineEnds rest :=
      unifyLineEnds.eq_3 '\n' rest (fun _ same => by cases same)
    rw [joined, cut _ _ (blank_unifyLineEnds blank), feed, cut _ _ (by simp [isBlank])]

theorem trim_unify_before {after : List Char} (cs : List Char)
    (blank : ∀ c ∈ after, isBlank c = true) :
    trim (unifyLineEnds (cs ++ after)) = trim (unifyLineEnds cs) := by
  have cut (first rest : List Char) (blank : ∀ c ∈ rest, isBlank c = true) :
      trim (first ++ rest) = trim first := by
    have none : ∀ c ∈ ([] : List Char), isBlank c = true := by simp
    simpa using trim_padded first none blank
  rcases unifyLineEnds_append cs after with apart | ⟨rest, rfl, joined⟩
  · rw [apart, cut _ _ (blank_unifyLineEnds blank)]
  · rw [joined, cut _ _ (blank_unifyLineEnds (List.forall_mem_cons.1 blank).2)]

/-- The ways to end a line. -/
inductive LineEnd where
  | lf
  | crlf
  | cr

def LineEnd.chars : LineEnd → List Char
  | .lf => ['\n']
  | .crlf => ['\r', '\n']
  | .cr => ['\r']

/-- A text with every line feed replaced. -/
def LineEnd.write (e : LineEnd) (cs : List Char) : List Char :=
  cs.flatMap fun c => if c = '\n' then e.chars else [c]

theorem LineEnd.write_feed (e : LineEnd) (cs : List Char) :
    e.write ('\n' :: cs) = e.chars ++ e.write cs := rfl

theorem LineEnd.write_other (e : LineEnd) {c : Char} (other : c ≠ '\n') (cs : List Char) :
    e.write (c :: cs) = c :: e.write cs := by
  rw [write, List.flatMap_cons, if_neg other]
  rfl

theorem LineEnd.no_feed_cr (cs : List Char) : '\n' ∉ LineEnd.cr.write cs := by
  intro mem
  obtain ⟨c, -, inside⟩ := List.mem_flatMap.1 mem
  split at inside
  · simp [chars] at inside
  · rename_i other
    exact other (List.mem_singleton.1 inside).symm

theorem unifyLineEnds_write (e : LineEnd) {cs : List Char} (free : '\r' ∉ cs) :
    unifyLineEnds (e.write cs) = cs := by
  induction cs with
  | nil => rfl
  | cons c cs ih =>
    obtain ⟨kept, free⟩ := not_or.1 (mt List.mem_cons.2 free)
    have rest := ih free
    by_cases feed : c = '\n'
    · subst feed
      rw [e.write_feed]
      cases e with
      | lf =>
        have plain := unifyLineEnds.eq_3 '\n' (LineEnd.lf.write cs) (fun _ same => by cases same)
        rw [LineEnd.chars, List.singleton_append, plain, rest]
        rfl
      | crlf => rw [LineEnd.chars, List.cons_append, List.singleton_append, unifyLineEnds, rest]
      | cr =>
        -- What comes next is no line feed, so the carriage return stands alone.
        have alone := unifyLineEnds.eq_3 '\r' (LineEnd.cr.write cs)
          (fun more _ same => LineEnd.no_feed_cr cs (same ▸ List.mem_cons_self))
        rw [LineEnd.chars, List.singleton_append, alone, rest]
        rfl
    · have own := unifyLineEnds.eq_3 c (e.write cs) (fun _ same => absurd same.symm kept)
      rw [e.write_other feed, own, if_neg (Ne.symm kept), rest]

end Text

open Text

namespace Hashing

theorem normalize_normalize (cs : List Char) : normalize (normalize cs) = normalize cs := by
  have free : '\r' ∉ normalize cs :=
    fun mem => no_return_unifyLineEnds cs ((trim_spec (unifyLineEnds cs)).1 mem)
  rw [normalize, unifyLineEnds_of_no_return free, normalize, trim, trim, trimWhere_trimWhere]

theorem toList_normalizeText (text : String) :
    (normalizeText text).toList = normalize text.toList := String.toList_ofList

theorem normalizeText_normalizeText (text : String) :
    normalizeText (normalizeText text) = normalizeText text := by
  have same : normalize (normalizeText text).toList = normalize text.toList := by
    rw [toList_normalizeText, normalize_normalize]
  exact congrArg String.ofList same

theorem normalize_written (e : LineEnd) {before after cs : List Char} (free : '\r' ∉ cs)
    (first : ∀ c ∈ before, isBlank c = true) (last : ∀ c ∈ after, isBlank c = true) :
    normalize (before ++ e.write cs ++ after) = normalize cs := by
  rw [normalize, trim_unify_before _ last, trim_unify_after _ first, unifyLineEnds_write e free,
    normalize, unifyLineEnds_of_no_return free]

end Hashing

namespace Staging

variable {q q' : StageRequest} {y y' : Symbol}

/-- Two symbols whose digests begin with the same version, id and kind. -/
structure SaltedAlike (q q' : StageRequest) (y y' : Symbol) : Prop where
  version : versionOf q' (symbolHandler q' y') = versionOf q (symbolHandler q y)
  id : y'.symbolId = y.symbolId
  kind : y'.kind = y.kind

theorem normSha_eq (q : StageRequest) (y : Symbol) : (symbolContent q y).map (·.normSha) =
    (versionOf q (symbolHandler q y)).map fun version =>
      some (Hashing.hashText (Hashing.normalizeText (symbolText q y)) version [y.symbolId, y.kind]) := by
  simp only [symbolContent, symbolHandler, bind, Except.bind]
  split <;> rename_i known <;> rw [known] <;> rfl

theorem normSha_alike (alike : SaltedAlike q q' y y')
    (same : Hashing.normalizeText (symbolText q' y') = Hashing.normalizeText (symbolText q y)) :
    (symbolContent q' y').map (·.normSha) = (symbolContent q y).map (·.normSha) := by
  rw [normSha_eq, normSha_eq, alike.version, alike.id, alike.kind, same]

theorem normHash_alike (q : StageRequest) (fileId : Int) (ids : SymbolIds) (c : Chunk) {text : String}
    (same : Hashing.normalizeText text = Hashing.normalizeText c.text) :
    (sliceContent q fileId ids { c with text }).map (·.normHash) =
      (sliceContent q fileId ids c).map (·.normHash) := by
  simp only [sliceContent, chunkHandler, bind, Except.bind, same]
  split
  · rfl
  · split
    · rfl
    · split
      · rfl
      · simp only [Except.map]

/-- Normalising replaces carriage returns before line feeds, then all that are left, and cuts off blanks. A
text that is normalised stays as it is: it holds no carriage return and no blank at its ends. However the
lines of a text without carriage returns are ended, and whatever blanks are put around it, it is normalised
to the same text, so that a chunk and a symbol with the one or the other have the same normalised digest. -/
theorem line_ends_ignored (text : String) :
    (Hashing.normalizeText text).toList = trim (replaceChar '\r' '\n' (joinEnds text.toList)) ∧
      Hashing.normalizeText (Hashing.normalizeText text) = Hashing.normalizeText text ∧
      ('\r' ∉ (Hashing.normalizeText text).toList ∧
        (∀ c ∈ (Hashing.normalizeText text).toList.head?, isBlank c = false) ∧
        ∀ c ∈ (Hashing.normalizeText text).toList.getLast?, isBlank c = false) ∧
      ('\r' ∉ text.toList → ∀ (e : LineEnd) (before after : List Char),
        (∀ c ∈ before, isBlank c = true) → (∀ c ∈ after, isBlank c = true) →
        ∀ other, other = String.ofList (before ++ e.write text.toList ++ after) →
          Hashing.normalizeText other = Hashing.normalizeText text ∧
          (∀ (q : StageRequest) (fileId : Int) (ids : SymbolIds) (c : Chunk), c.text = text →
            (sliceContent q fileId ids { c with text := other }).map (·.normHash) =
              (sliceContent q fileId ids c).map (·.normHash)) ∧
          ∀ (q q' : StageRequest) (y y' : Symbol), SaltedAlike q q' y y' → symbolText q y = text →
            symbolText q' y' = other →
            (symbolContent q' y').map (·.normSha) = (symbolContent q y).map (·.normSha)) := by
  have ends := trim_spec (unifyLineEnds text.toList)
  refine ⟨?_, Hashing.normalizeText_normalizeText text, ?_, ?_⟩
  · rw [Hashing.toList_normalizeText, Hashing.normalize, unifyLineEnds_passes]
  · rw [Hashing.toList_normalizeText]
    exact ⟨fun mem => no_return_unifyLineEnds _ (ends.1 mem), ends.2⟩
  · rintro free e before after first last other rfl
    have same : Hashing.normalizeText (String.ofList (before ++ e.write text.toList ++ after)) =
        Hashing.normalizeText text := by
      rw [Hashing.normalizeText, Hashing.normalizeText, String.toList_ofList,
        Hashing.normalize_written e free first last]
    refine ⟨same, ?_, ?_⟩
    · rintro q fileId ids c rfl
      exact normHash_alike q fileId ids c same
    · rintro q q' y y' alike own other
      exact normSha_alike alike (by rw [own, other, same])

/-- A class whose text is that of one chunk. -/
def classSymbol : Symbol where
  symbolId := "m.C"
  name := "m.C"
  kind := "class"
  startOffset := 0
  endOffset := 0

def classChunk (text : String) : Chunk where
  chunkId := "body"
  text := text
  startOffset := 0
  endOffset := 0
  parentSymbolId := some "m.C"

def classOf (text : String) : StageRequest :=
  outline "b1" [("m.C", "class", none)] [classChunk text]

/-- The class has got carriage returns, one of them on a line of its own, and a tab behind. -/
theorem rewritten_class_alike :
    ('\r' ∉ "class C:\n  x\n".toList ∧ "\rclass C:\r\n  x\r\n\t" =
      String.ofList (['\r'] ++ LineEnd.crlf.write "class C:\n  x\n".toList ++ ['\t'])) ∧
    Hashing.normalizeText "\rclass C:\r\n  x\r\n\t" = Hashing.normalizeText "class C:\n  x\n" ∧
    (sliceContent (classOf "class C:\n  x\n") 1 [("m.C", 1)]
        { classChunk "class C:\n  x\n" with text := "\rclass C:\r\n  x\r\n\t" }).map (·.normHash) =
      (sliceContent (classOf "class C:\n  x\n") 1 [("m.C", 1)]
        (classChunk "class C:\n  x\n")).map (·.normHash) ∧
    Succeeds (symbolContent (classOf "class C:\n  x\n") classSymbol) ∧
    (symbolContent (classOf "\rclass C:\r\n  x\r\n\t") classSymbol).map (·.normSha) =
      (symbolContent (classOf "class C:\n  x\n") classSymbol).map (·.normSha) := by
  have free : '\r' ∉ "class C:\n  x\n".toList := by decide
  have written : "\rclass C:\r\n  x\r\n\t" =
      String.ofList (['\r'] ++ LineEnd.crlf.write "class C:\n  x\n".toList ++ ['\t']) := by decide
  have salts (a b : String) : SaltedAlike (classOf a) (classOf b) classSymbol classSymbol :=
    ⟨rfl, rfl, rfl⟩
  obtain ⟨-, -, -, alike⟩ := line_ends_ignored "class C:\n  x\n"
  obtain ⟨same, chunk, symbol⟩ :=
    alike free .crlf ['\r'] ['\t'] (by simp [isBlank]) (by simp [isBlank]) _ written
  refine ⟨⟨free, written⟩, same, chunk _ 1 _ (classChunk "class C:\n  x\n") rfl,
    symbolContent_succeeds_iff.2 (by decide), symbol _ _ _ _ (salts _ _) ?_ ?_⟩
  · decide
  · decide

end Staging

namespace Text

theorem encodeUtf8_injective : Function.Injective encodeUtf8 := by
  intro a b same
  have read := congrArg decodeUtf8? same
  rw [decodeUtf8_encodeUtf8, decodeUtf8_encodeUtf8] at read
  exact Option.some.inj read

end Text

namespace Hashing

open Text

variable {version version' text text' : String} {salts salts' : List String} {content content' : List UInt8}

/-! ### Bytes of a digest -/

/-- The delimiter does not occur in a text. -/
def NulFree (text : String) : Prop := delimiter ∉ encodeUtf8 text

instance : Decidable (NulFree text) := inferInstanceAs (Decidable (delimiter ∉ encodeUtf8 text))

theorem stream_nil (content : List UInt8) (version : String) :
    stream content version [] = encodeUtf8 version ++ delimiter :: content := by
  simp [stream, seed]

theorem stream_cons (content : List UInt8) (version salt : String) (salts : List String) :
    stream content version (salt :: salts) =
      encodeUtf8 version ++ delimiter :: stream content salt salts := by
  simp [stream, seed]

theorem cut_inj {a b : List UInt8} {rest rest' : List UInt8} (free : delimiter ∉ a)
    (free' : delimiter ∉ b) (same : a ++ delimiter :: rest = b ++ delimiter :: rest') :
    a = b ∧ rest = rest' := by
  induction a generalizing b with
  | nil =>
    cases b with
    | nil => exact ⟨rfl, (List.cons.inj same).2⟩
    | cons d b => exact absurd ((List.cons.inj same).1 ▸ List.mem_cons_self) free'
  | cons c a ih =>
    cases b with
    | nil => exact absurd ((List.cons.inj same).1 ▸ List.mem_cons_self) free
    | cons d b =>
      obtain ⟨rfl, more⟩ := List.cons.inj same
      obtain ⟨rfl, behind⟩ :=
        ih (List.not_mem_of_not_mem_cons free) (List.not_mem_of_not_mem_cons free') more
      exact ⟨rfl, behind⟩

/-- A field that holds no delimiter ends at the first one. -/
theorem field_inj {rest rest' : List UInt8} (free : NulFree version) (free' : NulFree version')
    (same : encodeUtf8 version ++ delimiter :: rest = encodeUtf8 version' ++ delimiter :: rest') :
    version = version' ∧ rest = rest' := by
  obtain ⟨field, behind⟩ := cut_inj free free' same
  exact ⟨encodeUtf8_injective field, behind⟩

theorem stream_inj (long : salts.length = salts'.length) (free : ∀ s ∈ version :: salts, NulFree s)
    (free' : ∀ s ∈ version' :: salts', NulFree s)
    (same : stream content version salts = stream content' version' salts') :
    version = version' ∧ salts = salts' ∧ content = content' := by
  induction salts generalizing version version' salts' with
  | nil =>
    obtain rfl := List.length_eq_zero_iff.1 long.symm
    rw [stream_nil, stream_nil] at same
    obtain ⟨rfl, behind⟩ := field_inj (free _ List.mem_cons_self) (free' _ List.mem_cons_self) same
    exact ⟨rfl, rfl, behind⟩
  | cons salt salts ih =>
    cases salts' with
    | nil => cases long
    | cons salt' salts' =>
      rw [stream_cons, stream_cons] at same
      obtain ⟨own, more⟩ := List.forall_mem_cons.1 free
      obtain ⟨own', more'⟩ := List.forall_mem_cons.1 free'
      obtain ⟨rfl, behind⟩ := field_inj own own' same
      obtain ⟨rfl, rfl, last⟩ := ih (Nat.succ.inj long) more more' behind
      exact ⟨rfl, rfl, last⟩

/-- Between the same salts, only the versions have to be free of delimiters. -/
theorem stream_salted (free : NulFree version) (free' : NulFree version')
    (same : stream content version salts = stream content' version' salts) :
    version = version' ∧ content = content' := by
  cases salts with
  | nil =>
    rw [stream_nil, stream_nil] at same
    exact field_inj free free' same
  | cons salt salts =>
    rw [stream_cons, stream_cons] at same
    obtain ⟨rfl, behind⟩ := field_inj free free' same
    exact ⟨rfl, List.append_cancel_left behind⟩

end Hashing

namespace Staging

open Store

variable {q : StageRequest} {fileId : Int} {ids : SymbolIds} {s t : Store} {o o' : StageOutcome}

/-! ### Symbols that are written -/

/-- One symbol that has been written into a row, with all that its digest is made from. -/
structure WrittenSymbol where
  fileId : Int
  symbolId : String
  kind : String
  /-- The version of its handler. -/
  version : String
  text : String
  /-- Whether the row was only confirmed. -/
  kept : Bool
  deriving DecidableEq

namespace WrittenSymbol

def row (w : WrittenSymbol) : Int × String := (w.fileId, w.symbolId)

def stream (w : WrittenSymbol) : List UInt8 :=
  Hashing.stream (Text.encodeUtf8 w.text) w.version [w.symbolId, w.kind]

def sha (w : WrittenSymbol) : String := Digest.sha256Hex w.stream

/-- The row of the symbol says what was written. -/
structure Told (w : WrittenSymbol) (content : SymbolContent) : Prop where
  kind : content.kind = w.kind
  sha : content.sha = w.sha

end WrittenSymbol

/-- The symbols that a request writes one after the other, up to the first that cannot be written. -/
def writtenSymbols (q : StageRequest) (fileId : Int) :
    List Symbol → Store → StageOutcome → List WrittenSymbol
  | [], _, _ => []
  | y :: rest, s, o =>
    match versionOf q (symbolHandler q y), writeSymbol q fileId s o y with
    | .ok version, .ok (t, o', _) =>
      { fileId, symbolId := y.symbolId, kind := y.kind, version, text := symbolText q y
        kept := o.symbolsReused < o'.symbolsReused } :: writtenSymbols q fileId rest t o'
    | _, _ => []

/-- Of all symbols written so far, the one that a row is left with: the last that has changed it. -/
def writer? (log : List WrittenSymbol) (row : Int × String) : Option WrittenSymbol :=
  (log.filter fun w => w.row = row && !w.kept).getLast?

theorem writer_snoc (log : List WrittenSymbol) (w : WrittenSymbol) (row : Int × String) :
    writer? (log ++ [w]) row = if w.row = row ∧ w.kept = false then some w else writer? log row := by
  rw [writer?, List.filter_append]
  by_cases own : w.row = row ∧ w.kept = false
  · rw [if_pos own, List.filter_cons_of_pos (by simpa using own), List.filter_nil,
      List.getLast?_concat]
  · rw [if_neg own, List.filter_cons_of_neg (by simpa using own), List.filter_nil, List.append_nil,
      writer?]

theorem writer_mem {log : List WrittenSymbol} {row : Int × String} {w : WrittenSymbol}
    (found : writer? log row = some w) : w ∈ log ∧ w.row = row := by
  obtain ⟨mem, own⟩ := List.mem_filter.1 (List.mem_of_getLast? found)
  exact ⟨mem, by simpa using (Bool.and_eq_true_iff.1 own).1⟩

/-! ### Rows and their writers -/

theorem contents_congr (same : t.symbols = s.symbols) (file : Int) (path : String) :
    t.symbolContent? file path = s.symbolContent? file path := by
  rw [symbolContent?, symbol?, same, symbolContent?, symbol?]

/-- A symbol of the result and what is written of it. -/
structure Writes (q : StageRequest) (fileId : Int) (y : Symbol) (w : WrittenSymbol) : Prop where
  row : w.row = (fileId, y.symbolId)
  kind : w.kind = y.kind
  version : versionOf q (symbolHandler q y) = .ok w.version
  text : w.text = symbolText q y

/-- Writing a symbol puts its content into its own row and into no other. It is kept exactly if the row has
held this content before. -/
structure Put (w : WrittenSymbol) (content : SymbolContent) (s t : Store) : Prop where
  told : w.Told content
  table : ∀ file path, t.symbolContent? file path =
    if w.row = (file, path) then some content else s.symbolContent? file path
  kept : w.kept = true ↔ s.symbolContent? w.fileId w.symbolId = some content

theorem table_writeSymbol {y : Symbol} {id : Int} {content : SymbolContent} (sound : s.Sound)
    (done : writeSymbol q fileId s o y = .ok (t, o', id))
    (table : ∀ path, t.symbolContent? fileId path =
      if path = y.symbolId then some content else s.symbolContent? fileId path)
    (file : Int) (path : String) : t.symbolContent? file path =
      if (fileId, y.symbolId) = (file, path) then some content else s.symbolContent? file path := by
  by_cases here : file = fileId
  · subst here
    rw [table]
    simp only [Prod.mk.injEq, true_and, eq_comm]
  · have kept := (writeSymbol_elsewhere sound done here).symbols
    rw [if_neg fun same => here (Prod.mk.inj same).1.symm]
    simp only [symbolContent?, symbol_eq_find, kept]

/-- A symbol that can be written is the next in the log, and if it is kept it counts as reused. -/
theorem writeSymbol_next {y : Symbol} {id : Int} (sound : s.Sound)
    (done : writeSymbol q fileId s o y = .ok (t, o', id)) :
    ∃ w content, Writes q fileId y w ∧ Put w content s t ∧
      o'.symbolsReused = o.symbolsReused + (if w.kept = true then 1 else 0) ∧
      ∀ rest, writtenSymbols q fileId (y :: rest) s o = w :: writtenSymbols q fileId rest t o' := by
  obtain ⟨content, made, table, counted⟩ := writeSymbol_stored sound done
  obtain ⟨version, known, made⟩ := bind_ok_iff.1 made
  have answers : versionOf q (symbolHandler q y) = .ok version := known
  have kept : decide (o.symbolsReused < o'.symbolsReused) = true ↔
      s.symbolContent? fileId y.symbolId = some content := by
    rw [counted, decide_eq_true_eq]
    split <;> simp [*]
  refine ⟨⟨fileId, y.symbolId, y.kind, version, symbolText q y, o.symbolsReused < o'.symbolsReused⟩,
    content, ⟨rfl, rfl, answers, rfl⟩, ⟨?_, table_writeSymbol sound done table, kept⟩, ?_, ?_⟩
  · cases made
    exact ⟨rfl, rfl⟩
  · simp only [kept]
    rw [counted]
    split <;> rfl
  · intro rest
    simp only [writtenSymbols, answers, done]

/-- The rows of a store come from the symbols written so far: each says what its writer said. A row was
confirmed only for what it said at that time. -/
structure Traced (log : List WrittenSymbol) (s : Store) : Prop where
  rows : ∀ file path content, s.symbolContent? file path = some content →
    ∃ w, writer? log (file, path) = some w ∧ w.Told content
  kept : ∀ before w, before ++ [w] <+: log → w.kept = true →
    ∃ old, writer? before w.row = some old ∧ old.kind = w.kind ∧ old.sha = w.sha

theorem Traced.congr {log : List WrittenSymbol} (traced : Traced log s)
    (same : ∀ file path, t.symbolContent? file path = s.symbolContent? file path) : Traced log t :=
  ⟨fun file path content found => traced.rows file path content ((same file path).symm.trans found),
    traced.kept⟩

theorem Traced.snoc {log : List WrittenSymbol} {w : WrittenSymbol} {content : SymbolContent}
    (traced : Traced log s) (put : Put w content s t) : Traced (log ++ [w]) t where
  rows := by
    intro file path found there
    rw [put.table] at there
    rw [writer_snoc]
    by_cases own : w.row = (file, path)
    · rw [if_pos own] at there
      cases there
      cases changed : w.kept with
      | false => exact ⟨w, if_pos ⟨own, rfl⟩, put.told⟩
      | true =>
        -- The row stays with its writer, who has said the same.
        obtain ⟨rfl, rfl⟩ := Prod.mk.inj own
        obtain ⟨old, found, told⟩ := traced.rows _ _ content (put.kept.1 changed)
        exact ⟨old, by simpa using found, told⟩
    · rw [if_neg own] at there
      rw [if_neg fun both => own both.1]
      exact traced.rows file path found there
  kept := by
    intro before x inside confirmed
    rcases List.prefix_concat_iff.1 inside with last | earlier
    · obtain ⟨rfl, same⟩ := List.append_inj' last rfl
      obtain rfl := List.singleton_inj.1 same
      obtain ⟨old, found, told⟩ := traced.rows _ _ content (put.kept.1 confirmed)
      exact ⟨old, found, told.kind.symm.trans put.told.kind, told.sha.symm.trans put.told.sha⟩
    · exact traced.kept before x earlier confirmed

/-- Writing symbols adds them to the log one by one, whether or not all of them can be written. -/
theorem traced_writtenSymbols (fileId : Int) (symbols : List Symbol) {log : List WrittenSymbol}
    (sound : s.Sound) (traced : Traced log s) :
    ∃ u, Traced (log ++ writtenSymbols q fileId symbols s o) u ∧
      ∀ t o' ids, writeSymbols q fileId symbols s o = .ok (t, o', ids) → t = u := by
  -- The log grows together with the store, one symbol at a time.
  induction symbols generalizing s o log with
  | nil =>
    refine ⟨s, by simpa [writtenSymbols] using traced, ?_⟩
    rintro t o' ids ⟨⟩
    rfl
  | cons y rest ih =>
    cases first : writeSymbol q fileId s o y with
    | error e =>
      refine ⟨s, by simpa [writtenSymbols, first] using traced, ?_⟩
      intro t o' ids done
      simp only [writeSymbols, bind_ok_iff, first] at done
      obtain ⟨_, ⟨⟩, _⟩ := done
    | ok written =>
      obtain ⟨s1, o1, id⟩ := written
      obtain ⟨w, content, -, put, -, next⟩ := writeSymbol_next sound first
      obtain ⟨u, all, last⟩ := ih (o := o1) (sound_writeSymbol sound first) (traced.snoc put)
      rw [List.append_assoc, List.singleton_append, ← next] at all
      refine ⟨u, all, ?_⟩
      intro t o' ids done
      simp only [writeSymbols, bind_ok_iff, first] at done
      obtain ⟨_, ⟨⟩, ⟨t', o2, more⟩, others, ⟨⟩⟩ := done
      exact last _ _ _ others

/-- If all symbols can be written, all are, and as many are kept as count as reused. -/
theorem writtenSymbols_complete {symbols : List Symbol} (sound : s.Sound)
    (done : writeSymbols q fileId symbols s o = .ok (t, o', ids)) :
    List.Forall₂ (Writes q fileId) symbols (writtenSymbols q fileId symbols s o) ∧
      o'.symbolsReused =
        o.symbolsReused + (writtenSymbols q fileId symbols s o).countP (·.kept) := by
  induction symbols generalizing s o t o' ids with
  | nil =>
    cases done
    exact ⟨.nil, rfl⟩
  | cons y rest ih =>
    simp only [writeSymbols, bind_ok_iff] at done
    obtain ⟨⟨s1, o1, id⟩, first, ⟨s2, o2, more⟩, others, eq⟩ := done
    cases eq
    obtain ⟨w, content, writes, -, counted, next⟩ := writeSymbol_next sound first
    obtain ⟨each, total⟩ := ih (sound_writeSymbol sound first) others
    dsimp only at total
    rw [next, List.countP_cons, total, counted]
    exact ⟨.cons writes each, by omega⟩

end Staging

namespace Ledger

open Staging

/-! ### Histories -/

/-- The symbols that a request writes, as far as they can be written. -/
def tried (l : Ledger) (q : StageRequest) : List WrittenSymbol :=
  match l.store.upsertFile (fileInfo q) with
  | .ok (s, fileId) => writtenSymbols q fileId q.result.symbols s { fileId }
  | .error _ => []

/-- What a call that succeeds adds to the log. -/
def writes (l : Ledger) : Call → List WrittenSymbol
  | .stage now q =>
    match stage l.store now q with
    | .ok _ => l.tried q
    | .error _ => []
  | _ => []

def writesFrom (l : Ledger) : List Call → List WrittenSymbol
  | [] => []
  | c :: calls => l.writes c ++ (l.step c).writesFrom calls

/-- All symbols that the calls of a history have written, in order. -/
def log (calls : List Call) : List WrittenSymbol := empty.writesFrom calls

theorem writesFrom_append (l : Ledger) (calls more : List Call) :
    l.writesFrom (calls ++ more) = l.writesFrom calls ++ (calls.foldl step l).writesFrom more := by
  induction calls generalizing l with
  | nil => rfl
  | cons c calls ih => simp only [List.cons_append, writesFrom, ih, List.append_assoc, List.foldl_cons]

theorem log_snoc (calls : List Call) (c : Call) :
    log (calls ++ [c]) = log calls ++ (after calls).writes c := by
  rw [log, writesFrom_append, ← log, ← after, writesFrom, writesFrom, List.append_nil]

/-- A request that records its file writes its symbols, one by one, into what the history has left. -/
theorem traced_tried {l : Ledger} {log : List WrittenSymbol} {q : StageRequest} (sound : l.store.Sound)
    (traced : Traced log l.store) : ∃ u, Traced (log ++ l.tried q) u ∧
      ∀ now t o, stage l.store now q = .ok (t, o) →
        ∀ file path, t.symbolContent? file path = u.symbolContent? file path := by
  cases file : l.store.upsertFile (fileInfo q) with
  | error e =>
    refine ⟨l.store, by simpa [tried, file] using traced, ?_⟩
    intro now t o done
    obtain ⟨_, _, _, _, _, _, _, -, recorded, -⟩ := stage_ok_iff.1 done
    cases file.symm.trans recorded
  | ok recorded =>
    obtain ⟨s, fileId⟩ := recorded
    have same := (Store.upsertFile_tables file).2.1
    obtain ⟨u, all, last⟩ := traced_writtenSymbols (q := q) (o := { fileId }) fileId q.result.symbols
      (Store.sound_upsertFile sound file) (traced.congr (contents_congr same))
    refine ⟨u, by simpa only [tried, file] using all, ?_⟩
    intro now t o done name path
    obtain ⟨groups, s1, id, s2, o2, ids, s3, -, recorded, symbols, links, chunks⟩ := stage_ok_iff.1 done
    cases file.symm.trans recorded
    obtain rfl := last _ _ _ symbols
    rw [contents_congr (writeChunks_tables chunks).1.symbols, linkParents_contents links]

theorem traced_step {l : Ledger} {log : List WrittenSymbol} (sound : l.store.Sound)
    (traced : Traced log l.store) (c : Call) : Traced (log ++ l.writes c) (l.step c).store := by
  have kept (other : ∀ now q, c ≠ .stage now q) : Traced log (l.step c).store := by
    rcases symbols_step l c with ⟨same, -⟩ | ⟨now, q, t, o, own, -⟩
    · exact traced.congr (contents_congr same)
    · exact absurd own (other now q)
  cases c with
  | stage now q =>
    cases done : stage l.store now q with
    | error e => simpa only [writes, step, done, List.append_nil] using traced
    | ok result =>
      obtain ⟨u, all, last⟩ := traced_tried (q := q) sound traced
      simp only [writes, step, done]
      exact all.congr (last now result.1 result.2 done)
  | ensureBatch b => simpa only [writes, List.append_nil] using kept (by simp)
  | dropBatch b => simpa only [writes, List.append_nil] using kept (by simp)
  | deleteSlices b => simpa only [writes, List.append_nil] using kept (by simp)

theorem traced_after (calls : List Call) : Traced (log calls) (after calls).store := by
  induction calls using List.reverseRecOn with
  | nil =>
    constructor
    · intro file path content found
      cases found
    · intro before w inside
      exact absurd (List.prefix_nil.1 inside) (by simp)
  | append_singleton calls c ih =>
    rw [log_snoc, after_snoc]
    exact traced_step (sound_after calls) ih c

/-- A request that succeeds has written all its symbols, and its outcome tells how many are kept. -/
theorem tried_complete {l : Ledger} {q : StageRequest} {now : Instant} {t : Store} {o : StageOutcome}
    (sound : l.store.Sound) (done : stage l.store now q = .ok (t, o)) :
    List.Forall₂ (Writes q o.fileId) q.result.symbols (l.tried q) ∧
      (l.tried q).countP (·.kept) = o.symbolsReused := by
  obtain ⟨groups, s, fileId, s2, o2, ids, s3, -, file, symbols, -, chunks⟩ := stage_ok_iff.1 done
  obtain ⟨each, total⟩ := writtenSymbols_complete (Store.sound_upsertFile sound file) symbols
  have number : o.fileId = fileId := (writeChunks_tables chunks).2.trans (writeSymbols_rows symbols).2.2.1
  simp only [tried, file]
  rw [number, (writeChunks_symbolCounts chunks).2, total]
  exact ⟨each, (Nat.zero_add _).symm⟩

/-- Digests of symbols are unambiguous. Bytes that are the same come from the same version, salts and text, if
neither versions nor salts contain the delimiter and there are equally many salts. So if no two symbols that
have been written share a digest by chance, a row is kept only for the text and the version that it was last
written with. This holds for every request of a history and for any that comes after it; one that succeeds
has all its symbols among those written, and as many that are kept as its outcome tells. -/
theorem kept_symbol_as_written :
    (∀ (version version' : String) (salts salts' : List String) (text text' : String),
      salts.length = salts'.length → (∀ s ∈ version :: salts, Hashing.NulFree s) →
      (∀ s ∈ version' :: salts', Hashing.NulFree s) →
      Hashing.stream (Text.encodeUtf8 text) version salts =
        Hashing.stream (Text.encodeUtf8 text') version' salts' →
      version = version' ∧ salts = salts' ∧ text = text') ∧
    ∀ (calls : List Call) (q : StageRequest),
      (∀ now t o, stage (after calls).store now q = .ok (t, o) →
        List.Forall₂ (Writes q o.fileId) q.result.symbols ((after calls).tried q) ∧
          ((after calls).tried q).countP (·.kept) = o.symbolsReused) ∧
      ∀ all, all = log calls ++ (after calls).tried q → (∀ w ∈ all, Hashing.NulFree w.version) →
        (∀ v ∈ all, ∀ w ∈ all, v.sha = w.sha → v.stream = w.stream) →
        ∀ before w, before ++ [w] <+: all → w.kept = true →
          ∃ old, writer? before w.row = some old ∧ old.text = w.text ∧ old.version = w.version := by
  constructor
  · intro version version' salts salts' text text' long free free' same
    obtain ⟨versions, extra, bytes⟩ := Hashing.stream_inj long free free' same
    exact ⟨versions, extra, Text.encodeUtf8_injective bytes⟩
  · intro calls q
    refine ⟨fun now t o done => tried_complete (sound_after calls) done, ?_⟩
    rintro all rfl free distinct before w inside kept
    obtain ⟨u, traced, -⟩ := traced_tried (q := q) (sound_after calls) (traced_after calls)
    obtain ⟨old, found, kind, digest⟩ := traced.kept before w inside kept
    obtain ⟨earlier, row⟩ := writer_mem found
    have there : w ∈ log calls ++ (after calls).tried q := inside.subset (by simp)
    have there' : old ∈ log calls ++ (after calls).tried q :=
      inside.subset (List.mem_append_left _ earlier)
    have same := distinct old there' w there digest
    rw [WrittenSymbol.stream, WrittenSymbol.stream, (Prod.mk.inj row).2, kind] at same
    obtain ⟨version, bytes⟩ := Hashing.stream_salted (free old there') (free w there) same
    exact ⟨old, found, Text.encodeUtf8_injective bytes, version⟩

/-- A salt that contains the delimiter could take up the beginning of a text. -/
example : Hashing.stream (Text.encodeUtf8 "c\x00d") "1" ["a", "b"] =
    Hashing.stream (Text.encodeUtf8 "d") "1" ["a", "b\x00c"] := by decide +kernel

/-- The class has become a function. -/
def rewritten : StageRequest :=
  outline "b1" [("m.C", "function", none)] [classChunk "def C():\n  x\n"]

def rewriting : List Call := twoBatches ++
  [.stage .epoch (classOf "class C:\n  x\n"), .stage .epoch rewritten]

/-- What is written of the class, and of the function. -/
def classWritten : WrittenSymbol := ⟨1, "m.C", "class", "1", "class C:\n  x\n", false⟩

def functionWritten : WrittenSymbol := ⟨1, "m.C", "function", "1", "def C():\n  x\n", false⟩

/-- When the function is staged again, its row is kept for its own text and not for that of the class. -/
theorem rewritten_class_kept :
    Hashing.stream (Text.encodeUtf8 "c\x00d") "1" ["a", "b"] ≠
      Hashing.stream (Text.encodeUtf8 "d") "1" ["a", "c"] ∧
    (∃ t o, stage (after rewriting).store .epoch rewritten = .ok (t, o) ∧ o.symbolsReused = 1) ∧
    ∃ w ∈ (after rewriting).tried rewritten, w.kept = true ∧ w.text = "def C():\n  x\n" ∧
      ∃ old, writer? (log rewriting) w.row = some old ∧ old.text = w.text ∧ old.version = w.version := by
  obtain ⟨apart, traced⟩ := kept_symbol_as_written
  obtain ⟨complete, traced⟩ := traced rewriting rewritten
  obtain ⟨logged, again, ready⟩ : log rewriting = [classWritten, functionWritten] ∧
      (after rewriting).tried rewritten = [{ functionWritten with kept := true }] ∧
      Stageable (after rewriting).store rewritten := by decide +kernel
  have other : classWritten.sha ≠ functionWritten.sha := by decide +kernel
  have all : log rewriting ++ (after rewriting).tried rewritten =
      [classWritten, functionWritten, { functionWritten with kept := true }] := by
    rw [logged, again]
    rfl
  have free : ∀ w ∈ log rewriting ++ (after rewriting).tried rewritten,
      Hashing.NulFree w.version := by
    rw [all]
    decide +kernel
  have distinct : ∀ v ∈ log rewriting ++ (after rewriting).tried rewritten,
      ∀ w ∈ log rewriting ++ (after rewriting).tried rewritten,
        v.sha = w.sha → v.stream = w.stream := by
    have same : WrittenSymbol.stream { functionWritten with kept := true } = functionWritten.stream :=
      rfl
    simp only [WrittenSymbol.sha] at other
    simp only [all, List.forall_mem_cons, WrittenSymbol.sha, same]
    simp [other, Ne.symm other]
  refine ⟨fun same => ?_, ?_, _, again ▸ List.mem_singleton_self _, rfl, rfl, ?_⟩
  · obtain ⟨-, salts, -⟩ := apart "1" "1" ["a", "b"] ["a", "c"] "c\x00d" "d" rfl
      (by decide +kernel) (by decide +kernel) same
    exact absurd salts (by decide)
  · obtain ⟨⟨t, o⟩, done⟩ := (stage_succeeds_iff .epoch).2 ready
    refine ⟨t, o, done, ?_⟩
    rw [← (complete .epoch t o done).2, again]
    rfl
  · refine traced _ rfl free distinct (log rewriting) _ ?_ rfl
    rw [again]

end Ledger

end SourceSlices
