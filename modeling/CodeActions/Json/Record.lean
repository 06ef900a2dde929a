import CodeActions.Json.Printer
import CodeActions.Json.Reading
/-!
# Records in JSON

A record is written as an object of its fields and read from one, with unknown members skipped and
no field given twice; it may also be read from the list of all its fields in order. `Fields` says
this once for every record: which fields there are, and how each is read and written.
-/
namespace CodeActions.Json

structure Codec (α : Type) where
  read : Reader α
  ofValue? : Value → Option α
  toValue : α → Value

/-- A field of a record. `absent` is its value when the record does not mention it, if it need
not. -/
structure Field (α : Type) where
  name : String
  absent : Option α
  read : Reader α
  ofValue? : Value → Option α
  toValue? : α → Option Value

def Field.required {α : Type} (name : String) (c : Codec α) : Field α :=
  ⟨name, none, c.read, c.ofValue?, fun a => some (c.toValue a)⟩

/-- A field that is left out when it has no value, and may be given as `null` then. -/
def Field.optional {α : Type} (name : String) (c : Codec α) : Field (Option α) where
  name := name
  absent := some none
  read := Tree.readOptional c.read
  ofValue? := fun
    | .null => some none
    | v => some <$> c.ofValue? v
  toValue? := Option.map c.toValue

inductive Fields : List Type → Type 1 where
  | nil : Fields []
  | cons {α : Type} {αs : List Type} (f : Field α) (fs : Fields αs) : Fields (α :: αs)

def Row : List Type → Type
  | [] => Unit
  | α :: αs => α × Row αs

/-- A value for each field met so far. -/
def Slots : List Type → Type
  | [] => Unit
  | α :: αs => Option α × Slots αs

namespace Fields

def names {αs : List Type} : Fields αs → List String
  | .nil => []
  | .cons f fs => f.name :: fs.names

def empty {αs : List Type} : Fields αs → Slots αs
  | .nil => ()
  | .cons _ fs => (none, fs.empty)

/-- Reads a member into the slot of its field; `none` if no field has its name. -/
def store (depth : Nat) (name : String) (resume : Nat) (t : Tree) :
    {αs : List Type} → Fields αs → Slots αs → Option (Except Fault (Slots αs))
  | _, .nil, _ => none
  | _, .cons f fs, (slot, slots) =>
      if f.name = name then
        match slot with
        | some _ => some (.error ⟨.mismatch (.duplicateField name), resume⟩)
        | none => some ((fun a => (some a, slots)) <$> f.read depth t)
      else (fun r => (fun slots => (slot, slots)) <$> r) <$> store depth name resume t fs slots

/-- The row of the slots at the end of an object. -/
def finish (stop : Nat) : {αs : List Type} → Fields αs → Slots αs → Except Fault (Row αs)
  | _, .nil, _ => .ok ()
  | _, .cons f fs, (slot, slots) => match slot.or f.absent with
    | none => .error ⟨.mismatch (.missingField f.name), stop⟩
    | some a => (a, ·) <$> finish stop fs slots

/-- Reads members in their order, and collects what `other` makes of those that are no fields. -/
def readMembers {β : Type} (other : String → Reader (List β)) (depth : Nat) {αs : List Type}
    (fs : Fields αs) (slots : Slots αs) : List (Key × Tree) → Except Fault (Slots αs × List β)
  | [] => .ok (slots, [])
  | (key, t) :: ms => do
      let name ← key.name
      match fs.store depth name key.resume t slots with
      | some r =>
          let slots ← r
          readMembers other depth fs slots ms
      | none =>
          let found ← other name depth t
          let (slots, rest) ← readMembers other depth fs slots ms
          return (slots, found ++ rest)

/-- Reads the object form: a row, and what `other` found. -/
def readObject {β : Type} (other : String → Reader (List β)) (depth : Nat) {αs : List Type}
    (fs : Fields αs) (members : List (Key × Tree)) (ending : Ending) :
    Except Fault (Row αs × List β) := do
  let (slots, found) ← fs.readMembers other depth fs.empty members
  let stop ← ending.read
  return (← fs.finish stop slots, found)

/-- What is wrong with an item after the last field. -/
def surplus : Tree → Fault
  | .broken peek read _ => match read.cause with
    | .trailingComma => read
    | _ => ⟨.trailingCharacters, peek⟩
  | .scalar start _ _ | .list start _ _ | .object start _ _ => ⟨.trailingCharacters, start + 1⟩

def closeList : Ending → Except Fault Unit
  | .closed _ => .ok ()
  | .unfinished ⟨.expectedCommaInList, offset⟩ _ => .error ⟨.trailingCharacters, offset⟩
  | .unfinished read _ => .error read

/-- Reads the list form, after `n` of its items; `expected` describes all of it. -/
def readItems (expected : String) (ending : Ending) (depth : Nat) :
    {αs : List Type} → Nat → Fields αs → List Tree → Except Fault (Row αs)
  | _, _, .nil, [] => closeList ending
  | _, _, .nil, t :: _ => .error (surplus t)
  | _, n, .cons _ _, [] => do
      let stop ← ending.read
      .error ⟨.mismatch (.wrongLength n expected), stop⟩
  | _, n, .cons f fs, t :: ts => do
      let a ← f.read depth t
      let row ← readItems expected ending depth (n + 1) fs ts
      return (a, row)

def ofMembers? (members : List (String × Value)) :
    {αs : List Type} → Fields αs → Option (Row αs)
  | _, .nil => some ()
  | _, .cons f fs => do
      let a ← match members.filter fun (k, _) => k == f.name with
        | [] => f.absent
        | [(_, v)] => f.ofValue? v
        | _ => none
      return (a, ← ofMembers? members fs)

def ofItems? : {αs : List Type} → Fields αs → List Value → Option (Row αs)
  | _, .nil, [] => some ()
  | _, .cons f fs, v :: vs => do
      let a ← f.ofValue? v
      return (a, ← ofItems? fs vs)
  | _, _, _ => none

def toMembers : {αs : List Type} → Fields αs → Row αs → List (String × Value)
  | _, .nil, _ => []
  | _, .cons f fs, (a, row) =>
      ((f.toValue? a).map fun v => (f.name, v)).toList ++ toMembers fs row

/-- Unknown members of a record need only be well formed. -/
def skipOther (_ : String) : Reader (List Unit)
  | _, t => match t.skipFault? with
    | some fault => .error fault
    | none => .ok []

end Fields

namespace Codec

def text : Codec String := ⟨Tree.readText, fun | .text s => some s | _ => none, .text⟩

def flag : Codec Bool := ⟨Tree.readFlag, fun | .bool b => some b | _ => none, .bool⟩

def natOf? (bound : Nat) : Value → Option Nat
  | .number (.int i) => if 0 ≤ i ∧ i < bound then some i.toNat else none
  | _ => none

def word : Codec UInt32 where
  read depth t := UInt32.ofNat <$> Tree.readNat UInt32.size "u32" depth t
  ofValue? v := UInt32.ofNat <$> natOf? UInt32.size v
  toValue n := .number (.int n.toNat)

def position : Codec UInt64 where
  read depth t := UInt64.ofNat <$> Tree.readNat UInt64.size "usize" depth t
  ofValue? v := UInt64.ofNat <$> natOf? UInt64.size v
  toValue n := .number (.int n.toNat)

def list {α : Type} (c : Codec α) : Codec (List α) where
  read := Tree.readList c.read
  ofValue? := fun
    | .list vs => vs.mapM c.ofValue?
    | _ => none
  toValue as := .list (as.map c.toValue)

def record {ρ : Type} {αs : List Type} (title : String) (fields : Fields αs)
    (make : Row αs → ρ) (row : ρ → Row αs) : Codec ρ where
  read
    | 0, .list start _ _ | 0, .object start _ _ => .error (Tree.tooDeep start)
    | depth + 1, .list _ items ending =>
        let n := fields.names.length
        let expected := "struct " ++ title ++ " with " ++ toString n ++
          if n = 1 then " element" else " elements"
        make <$> fields.readItems expected ending depth 0 items
    | depth + 1, .object _ members ending =>
        (fun r => make r.1) <$> fields.readObject Fields.skipOther depth members ending
    | _, t => .error (t.wrongType ("struct " ++ title))
  ofValue? := fun
    | .list vs => make <$> fields.ofItems? vs
    | .object ms => make <$> fields.ofMembers? ms
    | _ => none
  toValue r := .object (fields.toMembers (row r))

def toText {α : Type} (c : Codec α) (a : α) : String := (c.toValue a).toText

end Codec
end CodeActions.Json
