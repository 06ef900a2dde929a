import CodeActions.Settings
import CodeActions.Yaml.Content
/-!
# Settings in YAML

The root is a map of options, an alias being followed wherever a value is read. A known option is
read as its type and may be given once; the others are kept, and become JSON values when the whole
map has been read.
-/
namespace CodeActions.Settings
open Yaml Json

/-- What a scalar is found to be, as a failure to be what is expected. -/
def scalarMismatch (tag : Option String) (style : Style) (text expected : String) :
    Mismatch :=
  match resolve tag style text with
  | .ok found => .wrongType found expected
  | .error m => m

def wrongNode {α : Type} (path : Path) (expected : String) : Node → Decode α
  | .cut | .alias _ _ => throw .malformed
  | .scalar m _ tag style text => complain path m (scalarMismatch tag style text expected)
  | .list m _ _ _ => complain path m (.wrongType .list expected)
  | .map m _ _ _ => complain path m (.wrongType .map expected)

/-- Whether a boolean or a number may be written in this way. -/
def isBare (style : Style) (tag : Option String) (standard : String) : Bool :=
  style = .plain || (style = .literal && tag = some (standardTag standard))

def readTextNode (expected : String) (path : Path) : Node → Decode String
  | .scalar _ _ _ _ text => return text
  | node => wrongNode path expected node

def readFlagNode (path : Path) (node : Node) : Decode Bool :=
  match node with
  | .scalar _ _ tag style text =>
      match if isBare style tag "bool" then bool? text else none with
      | some b => return b
      | none => wrongNode path "a boolean" node
  | node => wrongNode path "a boolean" node

def readWordNode (path : Path) (node : Node) : Decode UInt32 :=
  match node with
  | .scalar m _ tag style text =>
      match if isBare style tag "int" then nat? text.toList else none with
      | some n =>
          if n < UInt32.size then return .ofNat n
          else if n < Nat.pow 2 64 then complain path m (.wrongValue (.int n) "u32")
          else wrongNode path "u32" node
      | none => wrongNode path "u32" node
  | node => wrongNode path "u32" node

/-- A value that may be absent; the failure of a tag that asks for nothing is about the map at
`root`. -/
def readOptionalNode {α : Type} (env : Env) (root : Mark) (read : Path → Node → Decode α)
    (path : Path) (node : Node) : Decode (Option α) := do
  match ← env.follow node with
  | .scalar m a tag style text =>
      let isAbsent ←
        if style ≠ .plain then pure false
        else match tag with
          | none => pure (text.isEmpty || isNull text)
          | some tag =>
              if tag ≠ standardTag "null" then pure false
              else if isNull text then pure true
              else complain [] root (.wrongValue (.text text) "null")
      if isAbsent then return none else some <$> read path (.scalar m a tag style text)
  | node => some <$> read path node

structure Draft where
  settings : Settings := {}
  names : List String := []
  others : List (String × Content) := []

/-- The known options: how each is read into settings. -/
def knownNodes (env : Env) (root : Mark) :
    List (String × (Path → Node → Settings → Decode Settings)) :=
  let text := readOptionalNode env root (readTextNode "a string")
  let word := readOptionalNode env root readWordNode
  let flag := readOptionalNode env root readFlagNode
  [("newLineCharacter", fun p n s => do return { s with newLineCharacter := ← text p n }),
   ("indentSize", fun p n s => do return { s with indentSize := ← word p n }),
   ("tabSize", fun p n s => do return { s with tabSize := ← word p n }),
   ("convertTabsToSpaces", fun p n s => do return { s with convertTabsToSpaces := ← flag p n }),
   ("insertSpaceAfterCommaDelimiter",
     fun p n s => do return { s with insertSpaceAfterCommaDelimiter := ← flag p n }),
   ("insertSpaceBeforeAndAfterBinaryOperators",
     fun p n s => do return { s with insertSpaceBeforeAndAfterBinaryOperators := ← flag p n }),
   ("placeOpenBraceOnNewLineForFunctions",
     fun p n s => do return { s with placeOpenBraceOnNewLineForFunctions := ← flag p n })]

def readMember (env : Env) (root : Mark) (depth : Nat) (d : Draft) (k v : Node) :
    Decode Draft := do
  let name ← readTextNode "field identifier" [] (← env.follow k)
  let path := Path.member [] k
  match (knownNodes env root).lookup name with
  | some decode =>
      if d.names.contains name then complain [] root (.duplicateField name)
      return { d with settings := ← decode path v d.settings, names := name :: d.names }
  | none => return { d with others := (name, ← readContent env depth path v) :: d.others }

def readMembers (env : Env) (root : Mark) (depth : Nat) (d : Draft) :
    List (Node × Node) → Decode Draft
  | [] => return d
  | (k, v) :: ms => do readMembers env root depth (← readMember env root depth d k v) ms

def values : List (String × Content) → Except Mismatch (List (String × Value))
  | [] => .ok []
  | (k, c) :: ms => do
      let v ← c.toValue
      return (k, v) :: (← values ms)

def readRoot (env : Env) (node : Node) : Decode Settings := do
  match ← env.follow node with
  | .scalar m a tag style text =>
      if style = .plain && text.isEmpty then return {}
      else wrongNode [] ("struct " ++ title) (.scalar m a tag style text)
  | .map m _ _ members =>
      let d ← readMembers env m (Yaml.depthLimit - 1) {} members
      match values d.others.reverse with
      | .ok others => return { d.settings with extra := Value.sorted others }
      | .error mismatch => complain [] m mismatch
  | node => wrongNode [] ("struct " ++ title) node

/-- Reads the first document of a text, which must be the only one. -/
def ofYaml (text : String) : Except Yaml.Fault Settings :=
  match Document.ofText text with
  | .absent => .ok {}
  | .root node isWhole => do
      let (settings, _) ← (readRoot (Env.ofRoot node) node).run 0
      if isWhole then .ok settings else .error .malformed

end CodeActions.Settings
