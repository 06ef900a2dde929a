import CodeActions.Yaml.Spot
/-!
# Tokens of a YAML document
-/
namespace CodeActions.Yaml

inductive Style where
  | plain
  | quoted
  | literal
  | folded
deriving DecidableEq, Repr

inductive Sign where
  | streamEnd
  | version (major minor : Nat)
  | handle (name : String) (meaning : String)
  | documentStart
  | documentEnd
  | blockListStart
  | blockMapStart
  | blockEnd
  | flowListStart
  | flowListEnd
  | flowMapStart
  | flowMapEnd
  | entry
  | comma
  | key
  | value
  | alias (name : String)
  | anchor (name : String)
  /-- An empty handle says that the tag is the suffix as it stands. -/
  | tag (handle suffix : String)
  | scalar (style : Style) (text : String)
deriving DecidableEq, Repr

structure Token where
  sign : Sign
  mark : Mark
deriving DecidableEq, Repr

end CodeActions.Yaml
