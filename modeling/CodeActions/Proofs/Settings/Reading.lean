import CodeActions.Proofs.Json.Resolution
import CodeActions.Proofs.Settings.RoundTrip
/-!
# Reading settings

Which documents are read as settings, and as which: objects whose known names occur at most once and
have values of their types, or `null` (`Admits`). All other members are kept, of each key the last
one (`Holds`). The two kinds of members thus follow opposite rules for repeated keys and for `null`.
-/
namespace CodeActions

namespace Json
open Document

theorem Entries.ofMembers_optional_eq_some_iff {α : Type} {αs : List Type} {name : String}
    {s : Shape α} {es : Entries αs} {ms : List (List Piece × Document)}
    {row : Row (Option α :: αs)} :
    (Entries.optional name s es).ofMembers ms = some row ↔
      ((named name ms).length ≤ 1 ∧
          ∀ d ∈ named name ms, d = .null ∨ ∃ a, s.meaning d = some a) ∧
        row.1 = (named name ms).head?.bind s.meaning ∧ es.ofMembers ms = some row.2 := by
  have hsplit : (Entries.optional name s es).ofMembers ms = some row ↔
      once (some none) (optional? s.meaning) (named name ms) = some row.1 ∧
        es.ofMembers ms = some row.2 := by
    rw [Entries.ofMembers]
    cases once (some none) (optional? s.meaning) (named name ms) with
    | none => simp
    | some a =>
      cases es.ofMembers ms with
      | none => simp
      | some rest =>
        change some (Row.cons a rest) = some row ↔ some a = some row.1 ∧ some rest = some row.2
        rw [Option.some_inj, Option.some_inj, Option.some_inj]
        exact Prod.ext_iff
  rw [hsplit]
  rcases named name ms with _ | ⟨d, _ | ⟨e, rest⟩⟩
  · simp [once, eq_comm]
  · by_cases hd : d = .null
    · subst hd
      simp [once, optional?, Shape.meaning_null, eq_comm]
    · have hmeaning : optional? s.meaning d = some <$> s.meaning d := by
        rw [optional?]
        exact hd
      cases ha : s.meaning d <;> simp [once, hmeaning, ha, hd, eq_comm]
  · simp [once]

private theorem Entries.knows_eq_true_iff {αs : List Type} {es : Entries αs} {k : List Piece} :
    es.knows k = true ↔ ∃ name ∈ es.names, Piece.text? k = some name := by
  cases hk : Piece.text? k <;> simp [knows, hk]

private theorem Entries.named_filter_unknown {αs : List Type} (es : Entries αs) (name : String)
    (ms : List (List Piece × Document)) :
    named name (ms.filter fun m => !es.knows m.1) =
      if name ∈ es.names then [] else named name ms := by
  induction ms with
  | nil => simp [named]
  | cons m ms ih =>
    obtain ⟨k, d⟩ := m
    by_cases hk : Piece.text? k = some name
    · by_cases hname : name ∈ es.names
      · have hknown : es.knows k = true := knows_eq_true_iff.mpr ⟨name, hname, hk⟩
        simpa [hknown, hname] using ih
      · have hunknown : es.knows k = false := by simpa [knows, hk] using hname
        simpa [hunknown, hname, named, hk] using ih
    · have hskip : named name ((k, d) :: ms) = named name ms := by simp [named, hk]
      rw [hskip, ← ih]
      by_cases hknown : es.knows k = true
      · simp [hknown]
      · simp [hknown, named, hk]

end Json

namespace Settings
open Json Document

inductive Kind where
  | text
  | word
  | flag
deriving DecidableEq

def Kind.Admits : Kind → Document → Prop
  | .text, d => ∃ s, d.text? = some s
  | .word, d => ∃ n, d.natural? UInt32.size = some n
  | .flag, d => ∃ b, d = .bool b

def kinds : List (String × Kind) :=
  [("newLineCharacter", .text), ("indentSize", .word), ("tabSize", .word),
    ("convertTabsToSpaces", .flag), ("insertSpaceAfterCommaDelimiter", .flag),
    ("insertSpaceBeforeAndAfterBinaryOperators", .flag),
    ("placeOpenBraceOnNewLineForFunctions", .flag)]

/-- No known name occurs twice, and each value of one is `null` or of its type. -/
def Admits (ms : List (List Piece × Document)) : Prop :=
  ∀ k ∈ kinds, (named k.1 ms).length ≤ 1 ∧
    ∀ d ∈ named k.1 ms, d = .null ∨ k.2.Admits d

def optionsIn (ms : List (List Piece × Document)) : Settings :=
  let given (name : String) := (named name ms).head?
  { newLineCharacter := (given "newLineCharacter").bind text?
    indentSize := ((given "indentSize").bind (natural? UInt32.size)).map UInt32.ofNat
    tabSize := ((given "tabSize").bind (natural? UInt32.size)).map UInt32.ofNat
    convertTabsToSpaces := (given "convertTabsToSpaces").bind flag?
    insertSpaceAfterCommaDelimiter := (given "insertSpaceAfterCommaDelimiter").bind flag?
    insertSpaceBeforeAndAfterBinaryOperators :=
      (given "insertSpaceBeforeAndAfterBinaryOperators").bind flag?
    placeOpenBraceOnNewLineForFunctions :=
      (given "placeOpenBraceOnNewLineForFunctions").bind flag? }

/-- The settings that members give: the known options, and all other keys with what the last member
of each comes to. -/
structure Holds (s : Settings) (ms : List (List Piece × Document)) : Prop where
  options : s = { optionsIn ms with extra := s.extra }
  keys : ∀ name, name ∈ s.extra.map Prod.fst ↔ name ∉ known.names ∧ named name ms ≠ []
  byKey : Value.ByKey s.extra
  last : ∀ m ∈ s.extra, ∃ d, (named m.1 ms).getLast? = some d ∧ d.Resolves m.2

private theorem names_entries : entries.names = known.names := known_follow.names_eq.symm

private theorem exists_flag?_iff {d : Document} : (∃ b, d.flag? = some b) ↔ ∃ b, d = .bool b := by
  cases d <;> simp [flag?]

private theorem meaning_word (d : Document) :
    wordShape.meaning d = (d.natural? UInt32.size).map UInt32.ofNat := rfl

private theorem exists_meaning_word_iff {d : Document} :
    (∃ w, wordShape.meaning d = some w) ↔ ∃ n, d.natural? UInt32.size = some n := by
  rw [meaning_word]
  cases d.natural? UInt32.size <;> simp

private theorem bind_meaning_word (d : Option Document) :
    d.bind wordShape.meaning = (d.bind (natural? UInt32.size)).map UInt32.ofNat := by
  cases d <;> rfl

theorem ofMembers_eq_some_iff {ms : List (List Piece × Document)} {row : Row Known} :
    entries.ofMembers ms = some row ↔ Admits ms ∧ row = (optionsIn ms).row := by
  have hflag (d : Document) : (∃ b, Shape.flag.meaning d = some b) ↔ ∃ b, d = .bool b :=
    exists_flag?_iff
  simp only [entries, Entries.ofMembers_optional_eq_some_iff, exists_meaning_word_iff, hflag,
    bind_meaning_word, Admits, kinds, List.forall_mem_cons, Kind.Admits]
  constructor
  · rintro ⟨h₁, e₁, h₂, e₂, h₃, e₃, h₄, e₄, h₅, e₅, h₆, e₆, h₇, e₇, -⟩
    refine ⟨⟨h₁, h₂, h₃, h₄, h₅, h₆, h₇, List.forall_mem_nil _⟩, ?_⟩
    exact Prod.ext e₁ <| Prod.ext e₂ <| Prod.ext e₃ <| Prod.ext e₄ <| Prod.ext e₅ <|
      Prod.ext e₆ <| Prod.ext e₇ rfl
  · rintro ⟨⟨h₁, h₂, h₃, h₄, h₅, h₆, h₇, -⟩, rfl⟩
    exact ⟨h₁, rfl, h₂, rfl, h₃, rfl, h₄, rfl, h₅, rfl, h₆, rfl, h₇, rfl, rfl⟩

theorem meaning_eq_some_iff {d : Document} {s : Settings} :
    shape.meaning d = some s ↔ ∃ ms others, d = .object ms ∧ Admits ms ∧
      valuesOfMembers? (ms.filter fun m => !entries.knows m.1) = some others ∧
      s = { optionsIn ms with extra := Value.sorted (Value.canonicalMembers others) } := by
  cases d with
  | object ms =>
    rw [shape, Shape.meaning]
    constructor
    · intro h
      obtain ⟨row, hrow, h⟩ := Option.bind_eq_some_iff.mp h
      obtain ⟨others, hothers, h⟩ := Option.bind_eq_some_iff.mp h
      cases h
      obtain ⟨hadmits, rfl⟩ := ofMembers_eq_some_iff.mp hrow
      exact ⟨ms, others, rfl, hadmits, hothers, rfl⟩
    · rintro ⟨_, others, ⟨⟩, hadmits, hothers, rfl⟩
      rw [ofMembers_eq_some_iff.mpr ⟨hadmits, rfl⟩, hothers]
      rfl
  | _ => simp [shape, Shape.meaning]

theorem holds_of_others {s : Settings} {ms : List (List Piece × Document)}
    {others : List (String × Value)}
    (hothers : valuesOfMembers? (ms.filter fun m => !entries.knows m.1) = some others)
    (hs : s = { optionsIn ms with extra := Value.sorted (Value.canonicalMembers others) }) :
    s.Holds ms := by
  subst hs
  refine ⟨rfl, fun name => ?_, Value.byKey_sorted _, fun m hm => ?_⟩
  · have hkeys := mem_keys_sorted_iff hothers name
    rw [entries.named_filter_unknown, names_entries] at hkeys
    rw [hkeys]
    by_cases hname : name ∈ known.names <;> simp [hname]
  · obtain ⟨d, v, hd, hv, hm⟩ := (mem_sorted_canonicalMembers_iff hothers).mp hm
    rw [entries.named_filter_unknown] at hd
    split at hd
    · cases hd
    · exact ⟨d, hd, hm ▸ resolves_canonical d hv⟩

private theorem isPaired_of_admits {k : Kind} {d : Document} (h : k.Admits d) : d.IsPaired := by
  cases k with
  | text =>
    obtain ⟨s, hs⟩ := h
    cases d with
    | text ps => exact ⟨s, hs⟩
    | _ => cases hs
  | word =>
    obtain ⟨n, hn⟩ := h
    cases d with
    | number l => trivial
    | _ => cases hn
  | flag =>
    obtain ⟨b, rfl⟩ := h
    trivial

/-- The unknown members can be kept if all strings are texts: those of the known ones are so by
their types. -/
private theorem exists_others_iff {ms : List (List Piece × Document)} (hfinite : (object ms).IsFinite)
    (h : Admits ms) :
    (∃ others, valuesOfMembers? (ms.filter fun m => !entries.knows m.1) = some others) ↔
      (object ms).IsPaired := by
  rw [IsFinite, Every, everyAmong_iff] at hfinite
  rw [exists_valuesOfMembers?_iff, IsPaired, Every, everyAmong_iff]
  constructor
  · intro hothers m hm
    by_cases hknown : entries.knows m.1 = true
    · obtain ⟨name, hname, hk⟩ := Entries.knows_eq_true_iff.mp hknown
      obtain ⟨kind, hkind, rfl⟩ := List.mem_map.mp (show name ∈ kinds.map Prod.fst from hname)
      have hmem : m.2 ∈ named kind.1 ms := List.mem_filterMap.mpr ⟨m, hm, if_pos hk⟩
      refine ⟨⟨_, hk⟩, ?_⟩
      rcases (h kind hkind).2 m.2 hmem with hnull | hadmits
      · rw [hnull]
        trivial
      · exact isPaired_of_admits hadmits
    · obtain ⟨hk, hvalue⟩ := hothers m (List.mem_filter.mpr ⟨hm, by simp [hknown]⟩)
      exact ⟨hk, ((exists_value?_iff m.2).mp hvalue).2⟩
  · intro hpaired m hm
    have hm := (List.mem_filter.mp hm).1
    exact ⟨(hpaired m hm).1, (exists_value?_iff m.2).mpr ⟨(hfinite m hm).2, (hpaired m hm).2⟩⟩

private theorem exists_meaning_iff {d : Document} (hfinite : d.IsFinite) :
    (∃ s, shape.meaning d = some s) ↔ d.IsPaired ∧ ∃ ms, d = .object ms ∧ Admits ms := by
  constructor
  · rintro ⟨s, hs⟩
    obtain ⟨ms, others, rfl, hadmits, hothers, -⟩ := meaning_eq_some_iff.mp hs
    exact ⟨(exists_others_iff hfinite hadmits).mp ⟨others, hothers⟩, ms, rfl, hadmits⟩
  · rintro ⟨hpaired, ms, rfl, hadmits⟩
    obtain ⟨others, hothers⟩ := (exists_others_iff hfinite hadmits).mpr hpaired
    exact ⟨_, meaning_eq_some_iff.mpr ⟨ms, others, rfl, hadmits, hothers, rfl⟩⟩

theorem ofJsonText_eq_error {text : String} {failure : Failure}
    (h : ofJsonText text = .error failure) :
    ∃ cause line column, failure = .json cause line column := by
  obtain ⟨fault, -, rfl⟩ := mapError_eq_error_iff.mp h
  exact ⟨_, _, _, rfl⟩

/-- Which documents are read as settings, and as which. A document is read if it is an object with
at most one member of each known name, whose value is `null` or of the option's type, and if no
string in it escapes half of a surrogate pair. Of all other members the last one of each key is
kept, whatever its value. There are no failures but those of the JSON reader. -/
theorem ofJsonText_reads_document (text : String) :
    (∀ failure, ofJsonText text = .error failure →
      ∃ cause line column, failure = .json cause line column) ∧
    ∀ d : Document, d.Spells text → d.nesting ≤ depthLimit → d.IsFinite →
      ((∃ s, ofJsonText text = .ok s) ↔ d.IsPaired ∧ ∃ ms, d = .object ms ∧ Admits ms) ∧
      ∀ s, ofJsonText text = .ok s → ∃ ms, d = .object ms ∧ s.Holds ms := by
  refine ⟨fun failure h => ofJsonText_eq_error h, fun d hspells hdepth hfinite => ?_⟩
  have hread (s : Settings) : ofJsonText text = .ok s ↔ shape.meaning d = some s :=
    ofJsonText_eq_ok_iff.trans (readsAs.read_iff hspells hdepth s)
  constructor
  · rw [← exists_meaning_iff hfinite]
    exact exists_congr hread
  · intro s hs
    obtain ⟨ms, others, rfl, -, hothers, hs⟩ := meaning_eq_some_iff.mp ((hread s).mp hs)
    exact ⟨ms, rfl, holds_of_others hothers hs⟩

/-- Members that repeat an unknown key, with a value in which a key is repeated. -/
private def repeating : List (String × Value) :=
  [("b", .text ""), ("tabSize", .number (.int 4)),
    ("b", .object [("y", .bool true), ("y", .null)])]

theorem ofJsonText_reads_repeating :
    let text := "\x7b\"b\":\"\",\"tabSize\":4,\"b\":\x7b\"y\":true,\"y\":null\x7d\x7d"
    let s : Settings := { tabSize := some 4, extra := [("b", .object [("y", .null)])] }
    ofJsonText text = .ok s ∧ Admits (Value.documentsOfMembers repeating) ∧
      s.Holds (Value.documentsOfMembers repeating) := by
  intro text s
  have hint : (Value.object repeating).AllNumbers Number.IsInt :=
    ⟨trivial, trivial, ⟨trivial, trivial, trivial⟩, trivial⟩
  have hfits : (Value.object repeating).AllNumbers Number.Fits :=
    ⟨trivial, ⟨by decide, by decide⟩, ⟨trivial, trivial, trivial⟩, trivial⟩
  have hspells : (Value.object repeating).document.Spells text := Value.spells_toText hint
  have hfinite := ((exists_value?_iff _).mp ⟨_, Value.value?_document _ hint hfits⟩).1
  have hread : ofJsonText text = .ok s :=
    ofJsonText_eq_ok_iff.mpr ((readsAs.read_iff hspells (by decide) s).mpr rfl)
  obtain ⟨hiff, hholds⟩ := (ofJsonText_reads_document text).2 _ hspells (by decide) hfinite
  obtain ⟨-, ms, hms, hadmits⟩ := hiff.mp ⟨s, hread⟩
  obtain ⟨ms', hms', hs⟩ := hholds s hread
  cases hms
  cases hms'
  exact ⟨hread, hadmits, hs⟩

/-- An object whose first member is half of a surrogate pair, and is overwritten by the second. -/
private def overwritten : List (List Piece × Document) :=
  [(Piece.ofText "a", .text [.code 'd' '8' '3' 'd' 0xD83D rfl]), (Piece.ofText "a", .null)]

/-- Only the last member of an unknown key is kept, but all have to be values. -/
theorem not_read_of_overwritten_half_pair :
    (Document.object overwritten).Spells "\x7b\"a\":\"\\ud83d\",\"a\":null\x7d" ∧
      (Document.object overwritten).nesting ≤ depthLimit ∧ (Document.object overwritten).IsFinite ∧
      Admits overwritten ∧
      ∀ s, ofJsonText "\x7b\"a\":\"\\ud83d\",\"a\":null\x7d" ≠ .ok s := by
  have hspells : (Document.object overwritten).Spells "\x7b\"a\":\"\\ud83d\",\"a\":null\x7d" := by
    have hnull := Lexeme.Written.cons .null trivial <|
      .mark .closeObject trivial (.blanks (w := []) (List.forall_mem_nil _))
    have hsecond := Lexeme.Written.cons (.text (Piece.ofText "a")) trivial <|
      .mark .colon trivial hnull
    exact .mark .openObject trivial <| .cons (.text (Piece.ofText "a")) trivial <|
      .mark .colon trivial <| .cons (.text _) trivial <| .mark .comma trivial hsecond
  have hfinite : (Document.object overwritten).IsFinite :=
    ⟨⟨trivial, trivial⟩, ⟨trivial, trivial⟩, trivial⟩
  have hnone : ∀ k ∈ kinds, named k.1 overwritten = [] := by decide
  refine ⟨hspells, by decide, hfinite, ?_, fun s hs => ?_⟩
  · intro k hk
    simp [hnone k hk]
  · have hmeaning := (readsAs.read_iff hspells (by decide) s).mp (ofJsonText_eq_ok_iff.mp hs)
    obtain ⟨hpaired, -⟩ := (exists_meaning_iff hfinite).mp ⟨s, hmeaning⟩
    obtain ⟨⟨-, t, ht⟩, -⟩ := hpaired
    cases ht

end Settings
end CodeActions
