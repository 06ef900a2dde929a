import CodeActions.Decimal.Layout
import CodeActions.Json.Value
import CodeActions.Text.Inspect
/-!
# Printing JSON values

The compact text of a value, with its members in the order they have, and its inspection.
-/
namespace CodeActions.Json
open CodeActions.Text CodeActions.Decimal

def intText : Int → List Char
  | .ofNat n => Nat.toDigits 10 n
  | .negSucc n => '-' :: Nat.toDigits 10 (n + 1)

def Number.render : Number → List Char
  | .int i => intText i
  | .float f => Layout.json.float f

namespace Value

mutual
def render : Value → List Char
  | .null => ['n', 'u', 'l', 'l']
  | .bool true => ['t', 'r', 'u', 'e']
  | .bool false => ['f', 'a', 'l', 's', 'e']
  | .number n => n.render
  | .text s => jsonQuote s
  | .list [] => ['[', ']']
  | .list (v :: vs) => '[' :: (v.render ++ renderItems vs)
  | .object [] => ['\x7b', '\x7d']
  | .object ((k, v) :: ms) => '\x7b' :: (jsonQuote k ++ ':' :: (v.render ++ renderMembers ms))

def renderItems : List Value → List Char
  | [] => [']']
  | v :: vs => ',' :: (v.render ++ renderItems vs)

def renderMembers : List (String × Value) → List Char
  | [] => ['\x7d']
  | (k, v) :: ms => ',' :: (jsonQuote k ++ ':' :: (v.render ++ renderMembers ms))
end

def toText (v : Value) : String := String.ofList v.render

mutual
def inspect : Value → Inspect
  | .null => .atom "Null"
  | .bool b => .atom ("Bool(" ++ toString b ++ ")")
  | .number n => .atom ("Number(" ++ String.ofList n.render ++ ")")
  | .text s => .atom ("String(" ++ display s ++ ")")
  | .list items => .labelled "Array" (.list (inspectItems items))
  | .object members => .labelled "Object" (.map (inspectMembers members))

def inspectItems : List Value → List Inspect
  | [] => []
  | v :: vs => v.inspect :: inspectItems vs

def inspectMembers : List (String × Value) → List (String × Inspect)
  | [] => []
  | (k, v) :: ms => (display k, v.inspect) :: inspectMembers ms
end

end Value
end CodeActions.Json
