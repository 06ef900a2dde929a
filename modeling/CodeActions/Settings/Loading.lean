import CodeActions.FileTree
import CodeActions.Notice
import CodeActions.Settings.Yaml
import CodeActions.Failure
/-!
# Loading settings

Settings are read from texts and files. A file whose name ends in `.json`, in small letters and
after something else, is read as JSON, and any other as YAML. So is one whose name is not UTF-8, but
paths are texts here and cannot lead to it.
-/
namespace CodeActions.Settings

def ofJsonText (text : String) : Except Failure Settings :=
  (Json.read codec.read text).mapError (Failure.ofJson text)

def ofYamlText (text : String) : Except Failure Settings := (ofYaml text).mapError .yaml

/-- The last name of a path, unless it leads to a directory by itself. -/
def fileName? (path : String) : Option String :=
  ((FileTree.names path).filter (! FileTree.isIdle ·)).getLast?.filter (· ≠ "..")

/-- What follows the last dot of a name, unless that is also its first character. -/
def extension? (name : String) : Option String :=
  let ending := name.toList.reverse.takeWhile (· ≠ '.')
  match name.toList.reverse.dropWhile (· ≠ '.') with
  | [] | [_] => none
  | _ :: _ => some (String.ofList ending.reverse)

def isJson (path : String) : Bool := (fileName? path).bind extension? = some "json"

def ofFile (path text : String) : Except Failure Settings :=
  if isJson path then ofJsonText text else ofYamlText text

structure Loaded where
  result : Except Failure Settings
  notices : List Notice := []

/-- The system's number for the failure to read a directory. -/
def isDirectory : IoCause := .system 21

def notText : IoCause := .other "stream did not contain valid UTF-8"

variable (entry : String → Entry)

def load (path : String) : Loaded :=
  match entry path with
  | .absent => ⟨.error (.fileNotFound path), []⟩
  | .directory => ⟨.error (.io isDirectory), []⟩
  | .file bytes => match String.fromUTF8? bytes with
    | none => ⟨.error (.io notText), []⟩
    | some text => match ofFile path text with
      | .ok settings => ⟨.ok settings, [.loaded path]⟩
      | .error failure => ⟨.error failure, []⟩

def loadOrDefault (path : String) : Loaded :=
  match entry path with
  | .absent => ⟨.ok {}, [.noSettings path]⟩
  | _ => load entry path

def defaultPath (home : String) : String :=
  home ++ (if home.isEmpty || home.endsWith "/" then "" else "/") ++ ".refactor-registry/format.yaml"

def loadDefault (home : String) : Loaded := loadOrDefault entry (defaultPath home)

end CodeActions.Settings
