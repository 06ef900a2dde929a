import CodeActions.Text.Quoted
/-!
# Inspection texts

A value prepared for inspection, and its two layouts: on one line, or indented by four spaces with
a comma after every part.
-/
namespace CodeActions.Text

/-- What an inspection shows of a value. A record that is `open` has parts it does not show. -/
inductive Inspect where
  | atom (text : String)
  | record (name : String) (fields : List (String × Inspect)) (isOpen : Bool)
  | tuple (name : String) (parts : List Inspect)
  | list (items : List Inspect)
  | map (entries : List (String × Inspect))
  | labelled (label : String) (content : Inspect)

namespace Inspect

def text (s : String) : Inspect := .atom (display s)
def number (n : Int) : Inspect := .atom (toString n)
def flag (b : Bool) : Inspect := .atom (toString b)

def optional {α : Type} (inspect : α → Inspect) : Option α → Inspect
  | none => .atom "None"
  | some a => .tuple "Some" [inspect a]

def braces (name body : String) : String :=
  if body.isEmpty then name else name ++ " \x7b " ++ body ++ " \x7d"

mutual
def line : Inspect → String
  | .atom s => s
  | .record name fields isOpen =>
      braces name (", ".intercalate (fieldLines fields ++ if isOpen then [".."] else []))
  | .tuple name parts => name ++ "(" ++ ", ".intercalate (partLines parts) ++ ")"
  | .list items => "[" ++ ", ".intercalate (partLines items) ++ "]"
  | .map entries => "\x7b" ++ ", ".intercalate (fieldLines entries) ++ "\x7d"
  | .labelled label content => label ++ " " ++ content.line

def partLines : List Inspect → List String
  | [] => []
  | p :: ps => p.line :: partLines ps

def fieldLines : List (String × Inspect) → List String
  | [] => []
  | (k, v) :: fs => (k ++ ": " ++ v.line) :: fieldLines fs
end

def block (opening : String) (margin : String) (parts : List String) (closing : String) :
    String :=
  if parts.isEmpty then opening ++ closing
  else opening ++ "\n" ++ String.join (parts.map fun p => margin ++ "    " ++ p ++ "\n")
    ++ margin ++ closing

mutual
def indented (margin : String) : Inspect → String
  | .atom s => s
  | .record name fields isOpen =>
      let parts := fieldBlocks (margin ++ "    ") fields ++ if isOpen then [".."] else []
      if parts.isEmpty then name else block (name ++ " \x7b") margin parts "\x7d"
  | .tuple name parts => block (name ++ "(") margin (partBlocks (margin ++ "    ") parts) ")"
  | .list items => block "[" margin (partBlocks (margin ++ "    ") items) "]"
  | .map entries => block "\x7b" margin (fieldBlocks (margin ++ "    ") entries) "\x7d"
  | .labelled label content => label ++ " " ++ content.indented margin

def partBlocks (margin : String) : List Inspect → List String
  | [] => []
  | p :: ps => (p.indented margin ++ ",") :: partBlocks margin ps

def fieldBlocks (margin : String) : List (String × Inspect) → List String
  | [] => []
  | (k, v) :: fs => (k ++ ": " ++ v.indented margin ++ ",") :: fieldBlocks margin fs
end

def pretty (i : Inspect) : String := i.indented ""

end Inspect
end CodeActions.Text
