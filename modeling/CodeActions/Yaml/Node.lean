import CodeActions.Yaml.Scanner
/-!
# The nodes of a YAML document

The tree of the first document of a text. Where the tokens stop making sense the tree ends in a
`cut`, so that what stands before it can still be read. Anchors are numbered by how many names
there were before; giving a name again does not make it a new one, so numbers can repeat, and the
last node with a number is the one meant.
-/
namespace CodeActions.Yaml

inductive Node where
  | cut
  | alias (mark : Mark) (anchor : Nat)
  | scalar (mark : Mark) (anchor : Option Nat) (tag : Option String) (style : Style) (text : String)
  | list (mark : Mark) (anchor : Option Nat) (tag : Option String) (items : List Node)
  | map (mark : Mark) (anchor : Option Nat) (tag : Option String) (members : List (Node × Node))

instance : Inhabited Node := ⟨.cut⟩

abbrev Handles : Type := List (String × String)

abbrev Anchors : Type := List (String × Nat)

def Anchors.add (anchors : Anchors) (name : String) : Anchors :=
  (name, anchors.length) :: anchors.filter (·.1 ≠ name)

/-- A part of a document, and the state after it; no tokens are left once it is cut. -/
structure Grown (α : Type) where
  part : α
  anchors : Anchors
  rest : Option (List Token)

namespace Node

/-- Which collection a node stands in, and what that admits. -/
inductive Place where
  | flow
  | block
  /-- The value or key of a block map, where a list needs no indentation of its own. -/
  | blockMember
deriving DecidableEq, Repr

def empty (m : Mark) : Node := .scalar m none none .plain ""

structure Properties where
  anchor : Option String := none
  tag : Option (String × String) := none

/-- The anchor and the tag in front of a node, in either order, and where they start. -/
def properties : List Token → Properties × Option Mark × List Token
  | ⟨.anchor a, m⟩ :: ⟨.tag h s, _⟩ :: ts => (⟨some a, some (h, s)⟩, some m, ts)
  | ⟨.tag h s, m⟩ :: ⟨.anchor a, _⟩ :: ts => (⟨some a, some (h, s)⟩, some m, ts)
  | ⟨.anchor a, m⟩ :: ts => (⟨some a, none⟩, some m, ts)
  | ⟨.tag h s, m⟩ :: ts => (⟨none, some (h, s)⟩, some m, ts)
  | ts => ({}, none, ts)

def wholeTag (handles : Handles) : Option (String × String) → Option (Option String)
  | none => some none
  | some ("", suffix) => some (some suffix)
  | some (handle, suffix) => (handles.lookup handle).map fun meaning => some (meaning ++ suffix)

def number (anchors : Anchors) : Option String → Option Nat × Anchors
  | none => (none, anchors)
  | some name => (some anchors.length, anchors.add name)

def cutAt {α : Type} (part : α) (anchors : Anchors) : Grown α := ⟨part, anchors, none⟩

/-- A node without content has an anchor or a tag. -/
def growEmpty (m : Mark) (n : Option Nat) (tag : Option String) (after anchors : Anchors)
    (start : Option Mark) (ts : List Token) : Grown Node :=
  if start.isSome then ⟨.scalar m n tag .plain "", after, some ts⟩ else cutAt .cut anchors

def startsMember : Sign → Bool
  | .key | .value | .blockEnd => true
  | _ => false

mutual
/-- The node at the front of the tokens; `fuel` bounds the number of nested calls. -/
def grow (handles : Handles) (place : Place) (anchors : Anchors) :
    Nat → List Token → Grown Node
  | 0, _ => cutAt .cut anchors
  | fuel + 1, ts => match ts with
    | ⟨.alias name, m⟩ :: ts => match anchors.lookup name with
      | some n => ⟨.alias m n, anchors, some ts⟩
      | none => cutAt .cut anchors
    | ts =>
        let (props, start, ts) := properties ts
        match wholeTag handles props.tag, ts with
        | none, _ | _, [] => cutAt .cut anchors
        | some tag, t :: ts =>
            let m := start.getD t.mark
            let (n, after) := number anchors props.anchor
            match t.sign with
            | .entry =>
                if place = .blockMember then
                  let g := growLooseList handles after fuel (t :: ts)
                  ⟨.list m n tag g.part, g.anchors, g.rest⟩
                else growEmpty m n tag after anchors start (t :: ts)
            | .scalar style text => ⟨.scalar m n tag style text, after, some ts⟩
            | .flowListStart =>
                let g := growFlowList handles true after fuel ts
                ⟨.list m n tag g.part, g.anchors, g.rest⟩
            | .flowMapStart =>
                let g := growFlowMap handles true after fuel ts
                ⟨.map m n tag g.part, g.anchors, g.rest⟩
            | .blockListStart =>
                if place = .flow then growEmpty m n tag after anchors start (t :: ts)
                else
                  let g := growBlockList handles after fuel ts
                  ⟨.list m n tag g.part, g.anchors, g.rest⟩
            | .blockMapStart =>
                if place = .flow then growEmpty m n tag after anchors start (t :: ts)
                else
                  let g := growBlockMap handles after fuel ts
                  ⟨.map m n tag g.part, g.anchors, g.rest⟩
            | _ => growEmpty m n tag after anchors start (t :: ts)

def growBlockList (handles : Handles) (anchors : Anchors) : Nat → List Token → Grown (List Node)
  | 0, _ => cutAt [.cut] anchors
  | fuel + 1, ts => match ts with
    | ⟨.blockEnd, _⟩ :: ts => ⟨[], anchors, some ts⟩
    | ⟨.entry, m⟩ :: ts =>
        let g := growUnless handles .block (fun s => s matches .entry | .blockEnd) m anchors fuel ts
        match g.rest with
        | none => cutAt [g.part] g.anchors
        | some ts =>
            let more := growBlockList handles g.anchors fuel ts
            { more with part := g.part :: more.part }
    | _ => cutAt [.cut] anchors

/-- The node after an indicator, or an empty one if the next token is one of those that `p` names. -/
def growUnless (handles : Handles) (place : Place) (p : Sign → Bool) (m : Mark)
    (anchors : Anchors) : Nat → List Token → Grown Node
  | 0, _ | _, [] => cutAt .cut anchors
  | fuel + 1, t :: ts =>
      if p t.sign then ⟨empty m, anchors, some (t :: ts)⟩
      else grow handles place anchors fuel (t :: ts)

def growLooseList (handles : Handles) (anchors : Anchors) : Nat → List Token → Grown (List Node)
  | 0, _ => cutAt [.cut] anchors
  | fuel + 1, ts => match ts with
    | ⟨.entry, m⟩ :: ts =>
        let g := growUnless handles .block (fun s => s matches .entry || startsMember s) m
          anchors fuel ts
        match g.rest with
        | none => cutAt [g.part] g.anchors
        | some ts =>
            let more := growLooseList handles g.anchors fuel ts
            { more with part := g.part :: more.part }
    | [] => cutAt [.cut] anchors
    | ts => ⟨[], anchors, some ts⟩

def growBlockMap (handles : Handles) (anchors : Anchors) :
    Nat → List Token → Grown (List (Node × Node))
  | 0, _ => cutAt [(.cut, .cut)] anchors
  | fuel + 1, ts => match ts with
    | ⟨.blockEnd, _⟩ :: ts => ⟨[], anchors, some ts⟩
    | ⟨.key, m⟩ :: ts =>
        let k := growUnless handles .blockMember startsMember m anchors fuel ts
        match k.rest with
        | none => cutAt [(k.part, .cut)] k.anchors
        | some ts =>
            let v : Grown Node := match ts with
              | ⟨.value, m⟩ :: ts =>
                  growUnless handles .blockMember startsMember m k.anchors fuel ts
              | [] => cutAt .cut k.anchors
              | t :: ts => ⟨empty t.mark, k.anchors, some (t :: ts)⟩
            match v.rest with
            | none => cutAt [(k.part, v.part)] v.anchors
            | some ts =>
                let more := growBlockMap handles v.anchors fuel ts
                { more with part := (k.part, v.part) :: more.part }
    | _ => cutAt [(.cut, .cut)] anchors

/-- The items of a flow list; all but the first follow a comma. -/
def growFlowList (handles : Handles) (isFirst : Bool) (anchors : Anchors) :
    Nat → List Token → Grown (List Node)
  | 0, _ => cutAt [.cut] anchors
  | fuel + 1, ts => match ts with
    | ⟨.flowListEnd, _⟩ :: ts => ⟨[], anchors, some ts⟩
    | ts =>
        match isFirst, ts with
        | true, ts | false, ⟨.comma, _⟩ :: ts => match ts with
          | ⟨.flowListEnd, _⟩ :: ts => ⟨[], anchors, some ts⟩
          | ts =>
              let g : Grown Node := match ts with
                | ⟨.key, m⟩ :: ts => growPair handles m anchors fuel ts
                | ts => grow handles .flow anchors fuel ts
              match g.rest with
              | none => cutAt [g.part] g.anchors
              | some ts =>
                  let more := growFlowList handles false g.anchors fuel ts
                  { more with part := g.part :: more.part }
        | false, _ => cutAt [.cut] anchors

/-- A map of one member that stands as an item of a flow list. -/
def growPair (handles : Handles) (m : Mark) (anchors : Anchors) : Nat → List Token → Grown Node
  | 0, _ => cutAt (.map m none none [(.cut, .cut)]) anchors
  | fuel + 1, ts =>
      let k : Grown Node := match ts with
        | [] => cutAt .cut anchors
        | ⟨.value, m⟩ :: ts | ⟨.comma, m⟩ :: ts | ⟨.flowListEnd, m⟩ :: ts =>
            ⟨empty m, anchors, some ts⟩
        | ts => grow handles .flow anchors fuel ts
      match k.rest with
      | none => cutAt (.map m none none [(k.part, .cut)]) k.anchors
      | some ts =>
          let v : Grown Node := match ts with
            | ⟨.value, m⟩ :: ts =>
                growUnless handles .flow (fun s => s matches .comma | .flowListEnd) m k.anchors fuel ts
            | [] => cutAt .cut k.anchors
            | t :: ts => ⟨empty t.mark, k.anchors, some (t :: ts)⟩
          match v.rest with
          | none | some [] => cutAt (.map m none none [(k.part, v.part), (.cut, .cut)]) v.anchors
          | some ts => ⟨.map m none none [(k.part, v.part)], v.anchors, some ts⟩

def growFlowMap (handles : Handles) (isFirst : Bool) (anchors : Anchors) :
    Nat → List Token → Grown (List (Node × Node))
  | 0, _ => cutAt [(.cut, .cut)] anchors
  | fuel + 1, ts => match ts with
    | ⟨.flowMapEnd, _⟩ :: ts => ⟨[], anchors, some ts⟩
    | ts =>
        match isFirst, ts with
        | true, ts | false, ⟨.comma, _⟩ :: ts => match ts with
          | ⟨.flowMapEnd, _⟩ :: ts => ⟨[], anchors, some ts⟩
          | ts =>
              let endsMember (s : Sign) : Bool := s matches .comma | .flowMapEnd
              let k : Grown Node := match ts with
                | ⟨.key, m⟩ :: ts =>
                    growUnless handles .flow (fun s => endsMember s || s matches .value) m anchors
                      fuel ts
                | ts => grow handles .flow anchors fuel ts
              let hasKey := ts.head?.any fun t => t.sign matches .key
              match k.rest with
              | none => cutAt [(k.part, .cut)] k.anchors
              | some ts =>
                  let v : Grown Node := match hasKey, ts with
                    | true, ⟨.value, m⟩ :: ts =>
                        growUnless handles .flow endsMember m k.anchors fuel ts
                    | _, [] => cutAt .cut k.anchors
                    | _, t :: ts => ⟨empty t.mark, k.anchors, some (t :: ts)⟩
                  match v.rest with
                  | none => cutAt [(k.part, v.part)] v.anchors
                  | some ts =>
                      let more := growFlowMap handles false v.anchors fuel ts
                      { more with part := (k.part, v.part) :: more.part }
        | false, _ => cutAt [(.cut, .cut)] anchors
end
end Node

/-- The directives in front of a document, on top of the handles that always have a meaning. -/
def directives (version : Bool) (handles : Handles) : List Token → Option (Handles × List Token)
  | ⟨.version major minor, _⟩ :: ts =>
      if version || major ≠ 1 || (minor ≠ 1 && minor ≠ 2) then none
      else directives true handles ts
  | ⟨.handle name meaning, _⟩ :: ts =>
      if (handles.lookup name).isSome then none
      else directives version ((name, meaning) :: handles) ts
  | ts => some (handles ++ [("!", "!"), ("!!", "tag:yaml.org,2002:")], ts)

inductive Document where
  | absent
  /-- `isWhole` says that the text has nothing after the document and ends well. -/
  | root (node : Node) (isWhole : Bool)

def endsWell : List Token → Bool
  | ⟨.documentEnd, _⟩ :: ts => endsWell ts
  | [⟨.streamEnd, _⟩] => true
  | _ => false

namespace Document

def ofGrown (g : Grown Node) : Document :=
  .root g.part (g.rest.any endsWell)

def broken : Document := .root .cut false

def ofTokens (ts : List Token) : Document :=
  let fuel := 4 * ts.length + 8
  let grow (handles : Handles) (ts : List Token) : Document :=
    ofGrown (Node.grow handles .block [] fuel ts)
  match ts with
  | [⟨.streamEnd, _⟩] => .absent
  | [] => broken
  | t :: rest => match directives false [] (t :: rest) with
    | some (handles, ⟨.documentStart, _⟩ :: rest) => match rest with
      | ⟨.version _ _, m⟩ :: _ | ⟨.handle _ _, m⟩ :: _ | ⟨.documentStart, m⟩ :: _
      | ⟨.documentEnd, m⟩ :: _ | ⟨.streamEnd, m⟩ :: _ => .root (Node.empty m) (endsWell rest)
      | rest => grow handles rest
    | some (handles, rest) =>
        if t.sign matches .version _ _ | .handle _ _ then broken else grow handles rest
    | none => broken

def ofText (text : String) : Document :=
  match tokens? text with
  | some ts => ofTokens ts
  | none => broken

end Document
end CodeActions.Yaml
