/-!
# JSON values

A value with the members of its objects as a list. A document keeps the members as they were
written, repeated keys included; `canonical` keeps the last member of each key and sorts by key.
-/
namespace CodeActions.Json

inductive Number where
  | int (i : Int)
  | float (f : Float)

inductive Value where
  | null
  | bool (b : Bool)
  | number (n : Number)
  | text (s : String)
  | list (items : List Value)
  | object (members : List (String × Value))

instance : Inhabited Value := ⟨.null⟩

/-- Equality of numbers; doubles are compared as numbers, so both zeros are equal. -/
def Number.same : Number → Number → Bool
  | .int i, .int j => i == j
  | .float f, .float g => f == g
  | _, _ => false

namespace Value

mutual
def same : Value → Value → Bool
  | .null, .null => true
  | .bool a, .bool b => a == b
  | .number a, .number b => a.same b
  | .text a, .text b => a == b
  | .list as, .list bs => sameItems as bs
  | .object as, .object bs => sameMembers as bs
  | _, _ => false

def sameItems : List Value → List Value → Bool
  | [], [] => true
  | a :: as, b :: bs => a.same b && sameItems as bs
  | _, _ => false

def sameMembers : List (String × Value) → List (String × Value) → Bool
  | [], [] => true
  | (j, a) :: as, (k, b) :: bs => j == k && a.same b && sameMembers as bs
  | _, _ => false
end

/-- Puts a member at the place of its key, over an earlier member of that key. -/
def insert {α : Type} (k : String) (v : α) : List (String × α) → List (String × α)
  | [] => [(k, v)]
  | (j, w) :: r =>
      if k < j then (k, v) :: (j, w) :: r
      else if k = j then (k, v) :: r
      else (j, w) :: insert k v r

/-- Members sorted by key, the last one of each key. -/
def sorted {α : Type} (members : List (String × α)) : List (String × α) :=
  members.foldl (fun sofar (k, v) => insert k v sofar) []

mutual
def canonical : Value → Value
  | .list items => .list (canonicalItems items)
  | .object members => .object (sorted (canonicalMembers members))
  | v => v

def canonicalItems : List Value → List Value
  | [] => []
  | v :: vs => v.canonical :: canonicalItems vs

def canonicalMembers : List (String × Value) → List (String × Value)
  | [] => []
  | (k, v) :: ms => (k, v.canonical) :: canonicalMembers ms
end

def texts (ss : List String) : Value := .list (ss.map .text)

def optional {α : Type} (f : α → Value) : Option α → Value
  | none => .null
  | some a => f a

end Value
end CodeActions.Json
