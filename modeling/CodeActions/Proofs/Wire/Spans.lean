import CodeActions.Proofs.Json.RoundTrip
import CodeActions.Proofs.Wire
/-!
# Spans of wire values

Start and length of a span are read as any two positions, wherever the span stands in a document.
Whether its end is a position, too, is left open: it is so just if the two numbers that are written
add up to one (`ends_reached_iff`).
-/
namespace CodeActions

namespace Json
open Document

private theorem Document.natural?_lt {bound n : Nat} {d : Document} (h : d.natural? bound = some n) :
    n < bound := by
  cases d with
  | number l =>
    obtain ⟨⟨-, -, -, hlt⟩, hn⟩ := Option.ite_none_right_eq_some.mp h
    exact Option.some_inj.mp hn ▸ hlt
  | _ => cases h

/-- What a document gives for a field of a record: a member of its name, or the item at its place. -/
def Document.field? (name : String) (place : Nat) : Document → Option Document
  | .object ms => (named name ms).head?
  | .list ds => ds[place]?
  | _ => none

def Document.items : Document → List Document
  | .list ds => ds
  | _ => []

/-- The row that a document gives for the fields of a record from a place on. -/
def Entries.rowFrom {αs : List Type} (es : Entries αs) (place : Nat) : Document → Option (Row αs)
  | .list ds => es.ofItems (ds.drop place)
  | .object ms => es.ofMembers ms
  | _ => none

section
variable {α : Type} {αs : List Type} {ρ : Type} {name : String} {s : Shape α} {es : Entries αs}
  {d : Document} {place : Nat}

private theorem Entries.exists_field_of_rowFrom {row : Row (α :: αs)}
    (h : (Entries.required name s es).rowFrom place d = some row) :
    (∃ e, d.field? name place = some e ∧ s.meaning e = some row.1) ∧
      es.rowFrom (place + 1) d = some row.2 := by
  cases d with
  | list ds =>
    rw [rowFrom] at h
    cases hds : ds.drop place with
    | nil =>
      rw [hds] at h
      cases h
    | cons e rest =>
      have hitem : ds[place]? = some e := by rw [← List.head?_drop, hds, List.head?_cons]
      have hrest : ds.drop (place + 1) = rest := by rw [← List.tail_drop, hds, List.tail_cons]
      rw [hds, ofItems] at h
      obtain ⟨a, ha, h⟩ := Option.bind_eq_some_iff.mp h
      obtain ⟨row', hrow, h⟩ := Option.bind_eq_some_iff.mp h
      cases h
      exact ⟨⟨e, hitem, ha⟩, by rw [rowFrom, hrest, hrow]; rfl⟩
  | object ms =>
    rw [rowFrom, ofMembers_required_eq_some_iff] at h
    obtain ⟨⟨e, hnamed, he⟩, hrow⟩ := h
    exact ⟨⟨e, by rw [field?, hnamed, List.head?_cons], he⟩, hrow⟩
  | _ => cases h

private theorem Shape.exists_row_of_meaning {make : Row αs → ρ} {r : ρ}
    (h : (Shape.record es make).meaning d = some r) :
    ∃ row, es.rowFrom 0 d = some row ∧ r = make row := by
  cases d with
  | list ds =>
    obtain ⟨row, hrow, rfl⟩ := Option.map_eq_some_iff.mp h
    exact ⟨row, hrow, rfl⟩
  | object ms =>
    obtain ⟨row, hrow, rfl⟩ := Option.map_eq_some_iff.mp (Option.ite_none_right_eq_some.mp h).2
    exact ⟨row, hrow, rfl⟩
  | _ => cases h

private theorem Shape.flatMap_of_meaning {β : Type} {as : List α} {f : Document → List β} {g : α → List β}
    (hfg : ∀ ⦃e a⦄, s.meaning e = some a → g a = f e) (h : s.list.meaning d = some as) :
    as.flatMap g = d.items.flatMap f := by
  cases d with
  | list ds =>
    change ds.mapM s.meaning = some as at h
    change as.flatMap g = ds.flatMap f
    induction ds generalizing as with
    | nil =>
      cases h
      rfl
    | cons e ds ih =>
      rw [List.mapM_cons] at h
      obtain ⟨a, ha, h⟩ := Option.bind_eq_some_iff.mp h
      obtain ⟨rest, hrest, h⟩ := Option.bind_eq_some_iff.mp h
      cases h
      rw [List.flatMap_cons, List.flatMap_cons, hfg ha, ih hrest]
  | _ => cases h

end
end Json

open Json Document

namespace Span

/-- Whether the end is a position, and the one that lies behind the start by the length. -/
def ReachesEnd (s : Span) : Prop := ∃ e, s.end? = some e ∧ e.toNat = s.start.toNat + s.length.toNat

private theorem reachesEnd_iff (s : Span) :
    s.ReachesEnd ↔ s.start.toNat + s.length.toNat < UInt64.size := by
  constructor
  · rintro ⟨e, -, he⟩
    rw [← he]
    exact e.toNat_lt
  · intro hfits
    refine ⟨s.start + s.length, if_pos hfits, ?_⟩
    rw [UInt64.toNat_add]
    exact Nat.mod_eq_of_lt hfits

def numbers (s : Span) : ℕ × ℕ := (s.start.toNat, s.length.toNat)

def numbersIn (d : Document) : List (ℕ × ℕ) :=
  Option.toList do
    let start ← (← d.field? "start" 0).natural? UInt64.size
    let length ← (← d.field? "length" 1).natural? UInt64.size
    return (start, length)

private theorem natural?_of_meaning {d : Document} {p : UInt64} (h : positionShape.meaning d = some p) :
    d.natural? UInt64.size = some p.toNat := by
  obtain ⟨n, hn, rfl⟩ := Option.map_eq_some_iff.mp h
  rw [hn, UInt64.toNat_ofNat_of_lt' (natural?_lt hn)]

private theorem numbers_of_meaning {d : Document} {s : Span} (h : shape.meaning d = some s) :
    [s.numbers] = numbersIn d := by
  obtain ⟨row, hrow, rfl⟩ := Shape.exists_row_of_meaning h
  obtain ⟨⟨start, hstart, hstart'⟩, hrow⟩ := Entries.exists_field_of_rowFrom hrow
  obtain ⟨⟨length, hlength, hlength'⟩, -⟩ := Entries.exists_field_of_rowFrom hrow
  simp only [numbersIn, hstart, hlength, natural?_of_meaning hstart',
    natural?_of_meaning hlength', Option.bind_eq_bind, Option.bind_some]
  rfl

end Span

namespace Change

def numbersIn (d : Document) : List (ℕ × ℕ) := (d.field? "span" 0).toList.flatMap Span.numbersIn

private theorem numbers_of_meaning {d : Document} {c : Change} (h : shape.meaning d = some c) :
    [c.span.numbers] = numbersIn d := by
  obtain ⟨row, hrow, rfl⟩ := Shape.exists_row_of_meaning h
  obtain ⟨⟨span, hspan, hspan'⟩, -⟩ := Entries.exists_field_of_rowFrom hrow
  rw [numbersIn, hspan, Option.toList_some, List.flatMap_singleton]
  exact Span.numbers_of_meaning hspan'

end Change

namespace FileChanges

def spans (f : FileChanges) : List Span := f.textChanges.map Change.span

def numbersIn (d : Document) : List (ℕ × ℕ) :=
  (d.field? "textChanges" 1).toList.flatMap fun changes => changes.items.flatMap Change.numbersIn

private theorem numbers_of_meaning {d : Document} {f : FileChanges} (h : shape.meaning d = some f) :
    f.spans.map Span.numbers = numbersIn d := by
  obtain ⟨row, hrow, rfl⟩ := Shape.exists_row_of_meaning h
  obtain ⟨-, hrow⟩ := Entries.exists_field_of_rowFrom hrow
  obtain ⟨⟨changes, hchanges, hchanges'⟩, -⟩ := Entries.exists_field_of_rowFrom hrow
  rw [numbersIn, hchanges, Option.toList_some, List.flatMap_singleton,
    ← Shape.flatMap_of_meaning (fun _ _ hc => Change.numbers_of_meaning hc) hchanges',
    ← List.map_eq_flatMap, spans, List.map_map]
  rfl

end FileChanges

namespace Edit

def spans (e : Edit) : List Span := e.edits.flatMap FileChanges.spans

def numbersIn (d : Document) : List (ℕ × ℕ) :=
  (d.field? "edits" 0).toList.flatMap fun edits => edits.items.flatMap FileChanges.numbersIn

private theorem numbers_of_meaning {d : Document} {e : Edit} (h : shape.meaning d = some e) :
    e.spans.map Span.numbers = numbersIn d := by
  obtain ⟨row, hrow, rfl⟩ := Shape.exists_row_of_meaning h
  obtain ⟨⟨edits, hedits, hedits'⟩, -⟩ := Entries.exists_field_of_rowFrom hrow
  rw [numbersIn, hedits, Option.toList_some, List.flatMap_singleton,
    ← Shape.flatMap_of_meaning (fun _ _ hf => FileChanges.numbers_of_meaning hf) hedits',
    spans, List.map_flatMap]
  rfl

end Edit

namespace WireType

def spans : (w : WireType) → w.Carrier → List Span
  | span, s => [s]
  | change, c => [c.span]
  | fileChanges, f => f.spans
  | edit, e => e.spans
  | listing, _ | action, _ | offer, _ | formatting, _ => []

def numbersIn : WireType → Document → List (ℕ × ℕ)
  | span => Span.numbersIn
  | change => Change.numbersIn
  | fileChanges => FileChanges.numbersIn
  | edit => Edit.numbersIn
  | listing | action | offer | formatting => fun _ => []

private theorem numbers_of_meaning (w : WireType) {d : Document} {a : w.Carrier}
    (h : w.shape.meaning d = some a) : (w.spans a).map Span.numbers = w.numbersIn d := by
  cases w with
  | span => exact Span.numbers_of_meaning h
  | change => exact Change.numbers_of_meaning h
  | fileChanges => exact FileChanges.numbers_of_meaning h
  | edit => exact Edit.numbers_of_meaning h
  | listing | action | offer | formatting => rfl

/-- The spans that are read of a document have the starts and lengths that are written in it. All of
them reach their ends just if the start and the length of each add up to less than the number of
positions. -/
theorem ends_reached_iff (w : WireType) {d : Document} {text : String} {a : w.Carrier}
    (h : d.Spells text) (hdepth : d.nesting ≤ depthLimit)
    (hread : Json.read w.codec.read text = .ok a) :
    (w.spans a).map (fun s => (s.start.toNat, s.length.toNat)) = w.numbersIn d ∧
      ((∀ s ∈ w.spans a, s.ReachesEnd) ↔ ∀ p ∈ w.numbersIn d, p.1 + p.2 < UInt64.size) := by
  have hmeaning := (w.readsAs.read_iff h hdepth a).mp hread
  have hnumbers := w.numbers_of_meaning hmeaning
  refine ⟨hnumbers, ?_⟩
  rw [← hnumbers, List.forall_mem_map]
  exact forall₂_congr fun s _ => s.reachesEnd_iff

/-- An edit with lists for some of its records, and members in another order than the fields. -/
private def nested : Value :=
  .list [.list [.object [("textChanges", .list [
    .list [.list [.number (.int 1), .number (.int 2)], .text "x"],
    .object [("newText", .text ""),
      ("span", .object [("length", .number (.int 0)), ("start", .number (.int 3))])]]),
    ("fileName", .text "f")]], .null, .null]

theorem ends_reached_of_nested :
    let text := "[[\x7b\"textChanges\":[[[1,2],\"x\"],\x7b\"newText\":\"\"," ++
      "\"span\":\x7b\"length\":0,\"start\":3\x7d\x7d],\"fileName\":\"f\"\x7d],null,null]"
    let e : Edit := ⟨[⟨"f", [⟨⟨1, 2⟩, "x"⟩, ⟨⟨3, 0⟩, ""⟩]⟩], none, none⟩
    Json.read Edit.codec.read text = .ok e ∧ edit.numbersIn nested.document = [(1, 2), (3, 0)] ∧
      ∀ s ∈ e.spans, s.ReachesEnd := by
  intro text e
  have hint : nested.AllNumbers Number.IsInt := by
    simp [nested, Value.AllNumbers, Value.AllNumbersIn, Value.AllNumbersAmong, Number.IsInt]
  have hspells : nested.document.Spells text := Value.spells_toText hint
  have hread : Json.read Edit.codec.read text = .ok e :=
    (Edit.readsAs.read_iff hspells (by decide) e).mpr rfl
  obtain ⟨hnumbers, hends⟩ := ends_reached_iff .edit hspells (by decide) hread
  exact ⟨hread, hnumbers.symm, hends.mpr (by decide)⟩

/-- A span of length 1 may start at the last position, and then its end is none. -/
theorem end_beyond_last_position :
    let text := "\x7b\"start\":18446744073709551615,\"length\":1\x7d"
    let s : Span := ⟨18446744073709551615, 1⟩
    Json.read Span.codec.read text = .ok s ∧ s.end? = none := by
  intro text s
  let v : Value := .object [("start", .number (.int 18446744073709551615)),
    ("length", .number (.int 1))]
  have hspells : v.document.Spells text := Value.spells_toText ⟨trivial, trivial, trivial⟩
  exact ⟨(Span.readsAs.read_iff hspells (by decide) s).mpr rfl, rfl⟩

end WireType
end CodeActions
