import CodeActions.Json.Tree
/-!
# Reading values from a tree

A reader takes the number of containers it may still open, and fails with the first fault in the
order of the text. Skipping has no such limit, and is content with numbers out of range and with
lone surrogates.
-/
namespace CodeActions.Json

/-- Reads a value from a tree inside which a number of containers may still be opened. -/
abbrev Reader (α : Type) : Type := Nat → Tree → Except Fault α

def depthLimit : Nat := 127

def Ending.skipFault? : Ending → Option Fault
  | .closed _ => none
  | .unfinished _ skip => some skip

/-- The offset after a container, or what a reader reports at its end. -/
def Ending.read : Ending → Except Fault Nat
  | .closed stop => .ok stop
  | .unfinished read _ => .error read

namespace Tree

mutual
def skipFault? : Tree → Option Fault
  | .broken _ _ skip => some skip
  | .scalar _ _ _ => none
  | .list _ items ending => (skipFaultIn? items).or ending.skipFault?
  | .object _ members ending => (skipFaultAmong? members).or ending.skipFault?

def skipFaultIn? : List Tree → Option Fault
  | [] => none
  | t :: ts => t.skipFault?.or (skipFaultIn? ts)

def skipFaultAmong? : List (Key × Tree) → Option Fault
  | [] => none
  | (_, t) :: ms => t.skipFault?.or (skipFaultAmong? ms)
end

def tooDeep (start : Nat) : Fault := ⟨.tooDeep, start + 1⟩

def readScalar : Scalar → Except Fault Value
  | .null => .ok .null
  | .bool b => .ok (.bool b)
  | .number n => .number <$> n
  | .text s => .text <$> s

mutual
def readDocument (depth : Nat) : Tree → Except Fault Value
  | .broken _ read _ => .error read
  | .scalar _ _ s => readScalar s
  | .list start items ending => match depth with
    | 0 => .error (tooDeep start)
    | depth + 1 => do
        let vs ← readItems depth items
        let _ ← ending.read
        return .list vs
  | .object start members ending => match depth with
    | 0 => .error (tooDeep start)
    | depth + 1 => do
        let ms ← readMembers depth members
        let _ ← ending.read
        return .object ms

def readItems (depth : Nat) : List Tree → Except Fault (List Value)
  | [] => .ok []
  | t :: ts => do
      let v ← readDocument depth t
      return v :: (← readItems depth ts)

def readMembers (depth : Nat) : List (Key × Tree) → Except Fault (List (String × Value))
  | [] => .ok []
  | (key, t) :: ms => do
      let k ← key.name
      let v ← readDocument depth t
      return (k, v) :: (← readMembers depth ms)
end

/-- Reads any value, with the last member of each key. -/
def readValue : Reader Value := fun depth t => Value.canonical <$> t.readDocument depth

def wrongType (expected : String) : Tree → Fault
  | .broken _ read _ => read
  | .list start _ _ => ⟨.mismatch (.wrongType .list expected), start⟩
  | .object start _ _ => ⟨.mismatch (.wrongType .map expected), start⟩
  | .scalar _ stop s => match s with
    | .null => ⟨.mismatch (.wrongType .null expected), stop⟩
    | .bool b => ⟨.mismatch (.wrongType (.bool b) expected), stop⟩
    | .number (.ok (.int i)) => ⟨.mismatch (.wrongType (.int i) expected), stop⟩
    | .number (.ok (.float f)) => ⟨.mismatch (.wrongType (.float f) expected), stop⟩
    | .number (.error fault) => fault
    | .text (.ok t) => ⟨.mismatch (.wrongType (.text t) expected), stop⟩
    | .text (.error fault) => fault

def readText : Reader String
  | _, .scalar _ _ (.text s) => s
  | _, t => .error (t.wrongType "a string")

def readFlag : Reader Bool
  | _, .scalar _ _ (.bool b) => .ok b
  | _, t => .error (t.wrongType "a boolean")

def readNat (bound : Nat) (expected : String) : Reader Nat
  | _, .scalar _ stop (.number (.ok (.int i))) =>
      if 0 ≤ i ∧ i < bound then .ok i.toNat
      else .error ⟨.mismatch (.wrongValue (.int i) expected), stop⟩
  | _, t => .error (t.wrongType expected)

def readOptional {α : Type} (read : Reader α) : Reader (Option α)
  | _, .scalar _ _ .null => .ok none
  | depth, t => some <$> read depth t

def readAll {α : Type} (read : Reader α) (depth : Nat) (ts : List Tree) : Except Fault (List α) :=
  ts.mapM (read depth)

def readList {α : Type} (read : Reader α) : Reader (List α)
  | 0, .list start _ _ => .error (tooDeep start)
  | depth + 1, .list _ items ending => do
      let as ← readAll read depth items
      let _ ← ending.read
      return as
  | _, t => .error (t.wrongType "a sequence")

end Tree

def read {α : Type} (reader : Reader α) (text : String) : Except Fault α :=
  let ⟨tree, trailing⟩ := parse text
  match reader depthLimit tree, trailing with
  | .ok _, some peek => .error ⟨.trailingCharacters, peek⟩
  | r, _ => r

end CodeActions.Json
