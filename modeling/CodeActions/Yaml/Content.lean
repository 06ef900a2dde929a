import CodeActions.Json.Value
import CodeActions.Yaml.Resolve
/-!
# Reading values from nodes

Reading counts the aliases it follows, to stop at documents that blow up, and limits how deep
collections nest; an alias may lead back to a collection it stands in, and ends there as well.
-/
namespace CodeActions.Yaml

inductive Content where
  | scalar (found : Found)
  | list (items : List Content)
  | map (members : List (Content × Content))

instance : Inhabited Content := ⟨.scalar .null⟩

/-- Reads a value and counts the aliases it follows. -/
abbrev Decode (α : Type) : Type := StateT Nat (Except Fault) α

namespace Node

def mark : Node → Mark
  | .cut => ⟨0, 0⟩
  | .alias m _ | .scalar m _ _ _ _ | .list m _ _ _ | .map m _ _ _ => m

mutual
def anchored : Node → List (Nat × Node)
  | .cut | .alias _ _ => []
  | .scalar m a t s text => (a.map fun n => (n, .scalar m a t s text)).toList
  | .list m a t items => (a.map fun n => (n, .list m a t items)).toList ++ anchoredIn items
  | .map m a t members => (a.map fun n => (n, .map m a t members)).toList ++ anchoredAmong members

def anchoredIn : List Node → List (Nat × Node)
  | [] => []
  | n :: ns => n.anchored ++ anchoredIn ns

def anchoredAmong : List (Node × Node) → List (Nat × Node)
  | [] => []
  | (k, v) :: ms => k.anchored ++ v.anchored ++ anchoredAmong ms
end

mutual
/-- The number of scalars and aliases, and of starts and ends of collections. -/
def size : Node → Nat
  | .cut => 0
  | .alias _ _ | .scalar _ _ _ _ _ => 1
  | .list _ _ _ items => sizeIn items + 2
  | .map _ _ _ members => sizeAmong members + 2

def sizeIn : List Node → Nat
  | [] => 0
  | n :: ns => n.size + sizeIn ns

def sizeAmong : List (Node × Node) → Nat
  | [] => 0
  | (k, v) :: ms => k.size + v.size + sizeAmong ms
end

end Node

/-- The anchors of a document, and how many aliases may be followed in all. -/
structure Env where
  anchors : List (Nat × Node)
  limit : Nat

namespace Env

def ofRoot (root : Node) : Env := ⟨root.anchored.reverse, root.size * 100⟩

def follow (env : Env) : Node → Decode Node
  | .alias _ n => do
      let followed := (← get) + 1
      set followed
      if followed > env.limit then throw .malformed
      match env.anchors.lookup n with
      | some node => return node
      | none => throw .malformed
  | node => return node

end Env

def complain {α : Type} (path : Path) (mark : Mark) (m : Mismatch) : Decode α :=
  throw (.mismatch path m mark)

def depthLimit : Nat := 128

/-- The path of a member, which has a name only if its key is written out as a scalar. -/
def Path.member (path : Path) : Node → Path
  | .scalar _ _ _ _ text => .key text :: path
  | _ => .unnamed :: path

/-- Whether a tag asks for a type of the reader's own. -/
def isLocalTag (tag : Option String) : Bool := tag.any (·.startsWith "!")

def eachItem {α β : Type} (f : Nat → α → Decode β) (i : Nat) : List α → Decode (List β)
  | [] => return []
  | a :: as => do
      let b ← f i a
      return b :: (← eachItem f (i + 1) as)

def readContent (env : Env) (depth : Nat) (path : Path) (node : Node) : Decode Content := do
  match ← env.follow node with
  | .cut | .alias _ _ => throw .malformed
  | .scalar m _ tag style text =>
      if isLocalTag tag then throw .malformed
      match resolve tag style text with
      | .ok (.wide i) => complain path m (.wrongType (.wide i) "any value")
      | .ok found => return .scalar found
      | .error mismatch => complain path m mismatch
  | .list _ _ tag items => match depth with
    | 0 => throw .malformed
    | depth + 1 =>
        if isLocalTag tag then throw .malformed
        .list <$> eachItem (fun i n => readContent env depth (.index i :: path) n) 0 items
  | .map _ _ tag members => match depth with
    | 0 => throw .malformed
    | depth + 1 =>
        if isLocalTag tag then throw .malformed
        .map <$> eachItem (fun _ (k, v) => do
          let key ← readContent env depth path k
          return (key, ← readContent env depth (path.member k) v)) 0 members

namespace Content

def found : Content → Found
  | .scalar f => f
  | .list _ => .list
  | .map _ => .map

open Json in
def scalarValue : Found → Value
  | .bool b => .bool b
  | .int i | .wide i => .number (.int i)
  | .float f => if f.isFinite then .number (.float f) else .null
  | .text s => .text s
  | .null | .list | .map => .null

mutual
/-- The JSON value of a content. Keys have to be texts; numbers that are not finite get lost. -/
def toValue : Content → Except Mismatch Json.Value
  | .scalar f => .ok (scalarValue f)
  | .list items => .list <$> toValues items
  | .map members => (fun ms => .object (Json.Value.sorted ms)) <$> toMembers true members

def toValues : List Content → Except Mismatch (List Json.Value)
  | [] => .ok []
  | c :: cs => do
      let v ← c.toValue
      return v :: (← toValues cs)

def toMembers (isFirst : Bool) :
    List (Content × Content) → Except Mismatch (List (String × Json.Value))
  | [] => .ok []
  | (.scalar (.text k), c) :: ms => do
      let v ← c.toValue
      return (k, v) :: (← toMembers false ms)
  | (k, _) :: _ => .error (.wrongType k.found (if isFirst then "a string key" else "a string"))
end

end Content
end CodeActions.Yaml
