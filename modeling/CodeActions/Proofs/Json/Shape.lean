import CodeActions.Json.Record
import CodeActions.Proofs.Json.Document
/-!
# Shapes of documents

What documents of a type look like, and which value each of them gives: a description beside the
readers, without offsets, faults or an order in which things are met. A record is an object in which
each required field occurs once and each optional one at most once, or the list of all its fields.
-/
namespace CodeActions.Json

def Row.cons {α : Type} {αs : List Type} (a : α) (row : Row αs) : Row (α :: αs) := (a, row)

mutual
/-- The form of the documents for a type. -/
inductive Shape : Type → Type 1
  | text : Shape String
  | flag : Shape Bool
  | natural {α : Type} (bound : Nat) (ofNat : Nat → α) : Shape α
  | list {α : Type} (s : Shape α) : Shape (List α)
  | record {αs : List Type} {ρ : Type} (es : Entries αs) (make : Row αs → ρ) : Shape ρ
  /-- An object only, whose other members are kept. -/
  | openRecord {αs : List Type} {ρ : Type} (es : Entries αs)
      (make : Row αs → List (String × Value) → ρ) : Shape ρ

inductive Entries : List Type → Type 1
  | nil : Entries []
  | required {α : Type} {αs : List Type} (name : String) (s : Shape α) (es : Entries αs) :
      Entries (α :: αs)
  | optional {α : Type} {αs : List Type} (name : String) (s : Shape α) (es : Entries αs) :
      Entries (Option α :: αs)
end

namespace Literal

def amount (ds : List Nat) : Nat := ds.foldl (fun n d => n * 10 + d) 0

/-- The integer below `bound` that a literal is: one without sign, fraction and exponent. -/
def natural? (bound : Nat) (l : Literal) : Option Nat :=
  if l.negative = false ∧ l.fraction = none ∧ l.exponent = none ∧ amount l.whole < bound then
    some (amount l.whole)
  else none

end Literal

namespace Document

def text? : Document → Option String
  | .text ps => Piece.text? ps
  | _ => none

def flag? : Document → Option Bool
  | .bool b => some b
  | _ => none

def natural? (bound : Nat) : Document → Option Nat
  | .number l => l.natural? bound
  | _ => none

def optional? {α : Type} (meaning : Document → Option α) : Document → Option (Option α)
  | .null => some none
  | d => some <$> meaning d

def named (name : String) (ms : List (List Piece × Document)) : List Document :=
  ms.filterMap fun (k, d) => if Piece.text? k = some name then some d else none

/-- What the values of a name come to: no more than one may be given. -/
def once {α : Type} (absent : Option α) (meaning : Document → Option α) :
    List Document → Option α
  | [] => absent
  | [d] => meaning d
  | _ => none

/-- Whether every key is a text, and none has half of a surrogate pair. -/
def namesAll (ms : List (List Piece × Document)) : Bool := ms.all fun m => (Piece.text? m.1).isSome

theorem namesAll_cons {k : List Piece} {name : String} (hk : Piece.text? k = some name)
    (d : Document) (ms : List (List Piece × Document)) :
    namesAll ((k, d) :: ms) = namesAll ms := by
  simp [namesAll, hk]

end Document

open Document

namespace Entries

def names {αs : List Type} : Entries αs → List String
  | .nil => []
  | .required name _ es | .optional name _ es => name :: es.names

def knows {αs : List Type} (es : Entries αs) (k : List Piece) : Bool :=
  (Piece.text? k).any es.names.contains

end Entries

mutual
/-- The value that a document gives. -/
def Shape.meaning {α : Type} : Shape α → Document → Option α
  | .text, d => d.text?
  | .flag, d => d.flag?
  | .natural bound ofNat, d => ofNat <$> d.natural? bound
  | .list s, d => match d with
    | .list ds => ds.mapM s.meaning
    | _ => none
  | .record es make, d => match d with
    | .list ds => make <$> es.ofItems ds
    | .object ms => if namesAll ms then make <$> es.ofMembers ms else none
    | _ => none
  | .openRecord es make, d => match d with
    | .object ms => do
        let row ← es.ofMembers ms
        let others ← valuesOfMembers? (ms.filter fun m => !es.knows m.1)
        return make row (Value.canonicalMembers others)
    | _ => none

/-- The row of a list: one item for each field, with `null` for an absent one. -/
def Entries.ofItems {αs : List Type} : Entries αs → List Document → Option (Row αs)
  | .nil, ds => match ds with
    | [] => some ()
    | _ => none
  | .required _ s es, ds => match ds with
    | d :: ds => do
        let a ← s.meaning d
        return .cons a (← es.ofItems ds)
    | [] => none
  | .optional _ s es, ds => match ds with
    | d :: ds => do
        let a ← optional? s.meaning d
        return .cons a (← es.ofItems ds)
    | [] => none

/-- The row of an object: no field may occur twice, and a required one has to occur. -/
def Entries.ofMembers {αs : List Type} : Entries αs → List (List Piece × Document) →
    Option (Row αs)
  | .nil, _ => some ()
  | .required name s es, ms => do
      let a ← once none s.meaning (named name ms)
      return .cons a (← es.ofMembers ms)
  | .optional name s es, ms => do
      let a ← once (some none) (optional? s.meaning) (named name ms)
      return .cons a (← es.ofMembers ms)
end

theorem Entries.ofMembers_required_eq_some_iff {α : Type} {αs : List Type} {name : String}
    {s : Shape α} {es : Entries αs} {ms : List (List Piece × Document)} {row : Row (α :: αs)} :
    (Entries.required name s es).ofMembers ms = some row ↔
      (∃ d, named name ms = [d] ∧ s.meaning d = some row.1) ∧ es.ofMembers ms = some row.2 := by
  have hsplit : (Entries.required name s es).ofMembers ms = some row ↔
      once none s.meaning (named name ms) = some row.1 ∧ es.ofMembers ms = some row.2 := by
    rw [Entries.ofMembers]
    constructor
    · intro h
      obtain ⟨a, ha, h⟩ := Option.bind_eq_some_iff.mp h
      obtain ⟨rest, hrest, h⟩ := Option.bind_eq_some_iff.mp h
      cases h
      exact ⟨ha, hrest⟩
    · rintro ⟨ha, hrest⟩
      rw [ha, hrest]
      rfl
  rw [hsplit]
  rcases named name ms with _ | ⟨d, _ | ⟨e, ds⟩⟩ <;> simp [once]

end CodeActions.Json
