import CodeActions.Mismatch
/-!
# What is wrong with a YAML document

A document that breaks the rules of the language is just malformed. A value of the wrong type is
reported with its path from the root and the place where it starts.
-/
namespace CodeActions.Yaml
open CodeActions.Decimal

/-- A place in a text, counted from zero. -/
structure Mark where
  line : Nat
  column : Nat
deriving DecidableEq, Repr, Inhabited

inductive Step where
  | key (name : String)
  | index (i : Nat)
  | unnamed

/-- The steps from the root, the last one first. -/
abbrev Path : Type := List Step

def Path.text : Path → String
  | [] => ""
  | .index i :: rest => text rest ++ "[" ++ toString i ++ "]"
  | .key name :: rest => joined rest name
  | .unnamed :: rest => joined rest "?"
where
  joined : Path → String → String
    | [], name => name
    | rest, name => text rest ++ "." ++ name

inductive Fault where
  | malformed
  | mismatch (path : Path) (m : Mismatch) (mark : Mark)

def words : Found.Words := ⟨"unit value", .plain⟩

/-- The message about a value of the wrong type; the start of the text is not worth a mention. -/
def Fault.message? : Fault → Option String
  | .malformed => none
  | .mismatch path m mark =>
      let place := if mark.line = 0 ∧ mark.column = 0 then ""
        else " at line " ++ toString (mark.line + 1) ++ " column " ++ toString (mark.column + 1)
      some ((if path.isEmpty then "" else Path.text path ++ ": ") ++ m.message words ++ place)

end CodeActions.Yaml
