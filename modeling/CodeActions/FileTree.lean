/-!
# Trees of files

A directory with what is in it, and what a path leads to when looked up from there. Nothing is
known of what lies outside but that it consists of directories. Names and paths are texts: a name
whose bytes are not UTF-8 has no place here.
-/
namespace CodeActions

inductive FileTree where
  | file (bytes : ByteArray)
  | directory (entries : List (String × FileTree))

inductive Entry where
  | absent
  | directory
  | file (bytes : ByteArray)

namespace FileTree

instance : Inhabited FileTree := ⟨.directory []⟩

/-- The names in a path, where an empty one stands for a slash at an end or next to another. -/
def names (path : String) : List String := path.splitOn "/"

/-- Whether a name leads nowhere else. -/
def isIdle (name : String) : Bool := name = "" || name = "."

/-- Puts a tree where the names lead, with the directories on the way there. -/
def put (t : FileTree) : List String → FileTree → FileTree
  | [], _ => t
  | name :: rest, .file bytes => if isIdle name then put t rest (.file bytes) else .file bytes
  | name :: rest, .directory entries =>
      if isIdle name then put t rest (.directory entries)
      else
        let inner := (entries.lookup name).getD (.directory [])
        .directory ((name, put t rest inner) :: entries.filter (·.1 ≠ name))

def add (root : FileTree) (path : String) (t : FileTree) : FileTree := put t (names path) root

/-- Follows names from a directory with the given ones above it, the nearest first. Only the last
name may lead to a file. -/
def walk (above : List FileTree) (here : FileTree) : List String → Entry
  | [] => match here with
    | .file bytes => .file bytes
    | .directory _ => .directory
  | name :: rest => match here with
    | .file _ => .absent
    | .directory entries =>
        if isIdle name then walk above here rest
        else if name = ".." then match above with
          | [] => walk [] (.directory []) rest
          | parent :: above => walk above parent rest
        else match entries.lookup name with
          | some inner => walk (here :: above) inner rest
          | none => .absent

def pathLimit : Nat := 4096

def entry (root : FileTree) (path : String) : Entry :=
  if path.isEmpty || path.toList.contains '\x00' || pathLimit ≤ path.utf8ByteSize then .absent
  else match names path with
    | "" :: rest => walk [] (.directory []) rest
    | ns => walk [] root ns

end FileTree
end CodeActions
