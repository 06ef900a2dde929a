import CodeActions.Decimal.Layout
import CodeActions.Text.Quoted
/-!
# What stands where something else should

The description of a value in the message about a value of the wrong type. Documents of different
formats differ in the word for nothing and in the layout of doubles.
-/
namespace CodeActions
open Text Decimal

inductive Found where
  | null
  | bool (b : Bool)
  | int (i : Int)
  /-- An integer of more than 64 bits, given as one of 128. -/
  | wide (i : Int)
  | float (f : Float)
  | text (s : String)
  | list
  | map

structure Found.Words where
  nothing : String
  layout : Layout

def Found.describe (w : Found.Words) : Found → String
  | .null => w.nothing
  | .bool b => "boolean `" ++ toString b ++ "`"
  | .int i => "integer `" ++ toString i ++ "`"
  | .wide i => "integer `" ++ toString i ++ "` as " ++ if i < 0 then "i128" else "u128"
  | .float f => "floating point `" ++ String.ofList (w.layout.float f) ++ "`"
  | .text s => "string " ++ display s
  | .list => "sequence"
  | .map => "map"

/-- How a well-formed document fails to be what is wanted. -/
inductive Mismatch where
  | wrongType (found : Found) (expected : String)
  | wrongValue (found : Found) (expected : String)
  | wrongLength (length : Nat) (expected : String)
  | missingField (name : String)
  | duplicateField (name : String)

def Mismatch.message (w : Found.Words) : Mismatch → String
  | .wrongType found expected => "invalid type: " ++ found.describe w ++ ", expected " ++ expected
  | .wrongValue found expected => "invalid value: " ++ found.describe w ++ ", expected " ++ expected
  | .wrongLength n expected => "invalid length " ++ toString n ++ ", expected " ++ expected
  | .missingField name => "missing field `" ++ name ++ "`"
  | .duplicateField name => "duplicate field `" ++ name ++ "`"

end CodeActions
