import CodeActions.Json.Token
/-!
# The tree of a JSON document

A document with the place of each part. Where a text breaks off, the tree ends in a `broken` leaf
or in an unfinished container, which says what a reader and what a skipper report on getting there.
Every text has a tree, so that reading a type is a function on trees.
-/
namespace CodeActions.Json

/-- How a container ends: with its bracket, up to the offset after it, or not at all. -/
inductive Ending where
  | closed (stop : Nat)
  | unfinished (read skip : Fault)

/-- A member's key. `resume` is where the next token starts, or ends if it is a closing brace. -/
structure Key where
  name : Except Fault String
  resume : Nat

inductive Tree where
  /-- No value; `peek` is the offset after the first byte of what is there instead. -/
  | broken (peek : Nat) (read skip : Fault)
  | scalar (start stop : Nat) (s : Scalar)
  | list (start : Nat) (items : List Tree) (ending : Ending)
  | object (start : Nat) (members : List (Key × Tree)) (ending : Ending)

/-- The tree of a text, and the offset after the first byte that follows the value, if any does. -/
structure Parsed where
  tree : Tree
  trailing : Option Nat

namespace Tree

/-- An open container with its parts so far, the last one first. -/
inductive Frame where
  | list (start : Nat) (items : List Tree)
  | object (start : Nat) (members : List (Key × Tree))
  | member (start : Nat) (members : List (Key × Tree)) (key : Key)

inductive Spot where
  | value
  | itemOrClose
  | item
  | keyOrClose
  | key
  | colon (name : Except Fault String)
  | next
  | done (t : Tree)

/-- Ends every open container where the text breaks off, the innermost one after the part `t`. -/
def abandon (read skip : Fault) (t : Option Tree) : List Frame → Parsed
  | [] => ⟨t.getD (.broken read.offset read skip), none⟩
  | .list start items :: fs =>
      abandon read skip (some (.list start (t.toList ++ items).reverse (.unfinished read skip))) fs
  | .object start members :: fs =>
      abandon read skip (some (.object start members.reverse (.unfinished read skip))) fs
  | .member start members key :: fs =>
      let value := t.getD (.broken read.offset read skip)
      abandon read skip
        (some (.object start ((key, value) :: members).reverse (.unfinished read skip))) fs

def noValue (read skip : Fault) (peek : Nat) : List Frame → Parsed :=
  abandon read skip (some (.broken peek read skip))

def noPart (read skip : Fault) : List Frame → Parsed := abandon read skip none

inductive Move where
  | go (spot : Spot) (frames : List Frame)
  | stop (p : Parsed)

def attach (t : Tree) : List Frame → Move
  | .list start items :: fs => .go .next (.list start (t :: items) :: fs)
  | .member start members key :: fs => .go .next (.object start ((key, t) :: members) :: fs)
  | .object start members :: fs => .go .next (.object start members :: fs)
  | [] => .go (.done t) []

def onValue (fs : List Frame) (t : Located) : Move :=
  match t.token with
  | .openList => .go .itemOrClose (.list t.start [] :: fs)
  | .openObject => .go .keyOrClose (.object t.start [] :: fs)
  | .scalar s => attach (.scalar t.start t.stop s) fs
  | .broken read skip | .brokenText read skip => .stop (noValue read skip (t.start + 1) fs)
  | _ =>
      let p := t.start + 1
      .stop (noValue ⟨.expectedValue, p⟩ ⟨.expectedValue, p⟩ p fs)

/-- The token after a list item, with what a reader finds wrong with any but two. -/
def afterItem (t : Located) (start : Nat) (items : List Tree) (fs : List Frame) : Move :=
  match t.token with
  | .comma => .go .item (.list start items :: fs)
  | .closeList => attach (.list start items.reverse (.closed t.stop)) fs
  | _ =>
      let f : Fault := ⟨.expectedCommaInList, t.start + 1⟩
      .stop (noPart f f (.list start items :: fs))

def afterMember (t : Located) (start : Nat) (members : List (Key × Tree))
    (fs : List Frame) : Move :=
  match t.token with
  | .comma => .go .key (.object start members :: fs)
  | .closeObject => attach (.object start members.reverse (.closed t.stop)) fs
  | _ =>
      let f : Fault := ⟨.expectedCommaInObject, t.start + 1⟩
      .stop (noPart f f (.object start members :: fs))

/-- A key; `read` is what a reader says of a closing brace in its place. -/
def onKey (fs : List Frame) (t : Located) (early : Cause) : Move :=
  let f : Fault := ⟨.expectedKey, t.start + 1⟩
  match t.token with
  | .scalar (.text name) => .go (.colon name) fs
  | .closeObject => .stop (noPart ⟨early, t.start + 1⟩ f fs)
  | .brokenText read skip => .stop (noPart read skip fs)
  | _ => .stop (noPart f f fs)

def step : Spot → List Frame → Located → Move
  | .value, fs, t => onValue fs t
  | .itemOrClose, .list start items :: fs, t => match t.token with
    | .closeList => attach (.list start items.reverse (.closed t.stop)) fs
    | _ => onValue (.list start items :: fs) t
  | .itemOrClose, fs, t => onValue fs t
  | .item, fs, t => match t.token with
    | .closeList =>
        let p := t.start + 1
        .stop (noValue ⟨.trailingComma, p⟩ ⟨.expectedValue, p⟩ p fs)
    | _ => onValue fs t
  | .keyOrClose, .object start members :: fs, t => match t.token with
    | .closeObject => attach (.object start members.reverse (.closed t.stop)) fs
    | _ => onKey (.object start members :: fs) t .expectedKey
  | .keyOrClose, fs, t => onKey fs t .expectedKey
  | .key, fs, t => onKey fs t .trailingComma
  | .colon name, .object start members :: fs, t =>
      let resume := if t.token matches .closeObject then t.start + 1 else t.start
      let fs := .member start members ⟨name, resume⟩ :: fs
      match t.token with
      | .colon => .go .value fs
      | _ =>
          let f : Fault := ⟨.expectedColon, t.start + 1⟩
          .stop (noValue f f (t.start + 1) fs)
  | .colon _, fs, t => onValue fs t
  | .next, .list start items :: fs, t => afterItem t start items fs
  | .next, .object start members :: fs, t => afterMember t start members fs
  | .next, .member start members _ :: fs, t => afterMember t start members fs
  | .next, [], t => onValue [] t
  | .done tree, _, t => .stop ⟨tree, some (t.start + 1)⟩

def atEnd (stop : Nat) : Spot → List Frame → Parsed
  | .value, fs | .item, fs => noValue ⟨.eofInValue, stop⟩ ⟨.eofInValue, stop⟩ stop fs
  | .itemOrClose, fs => noPart ⟨.eofInList, stop⟩ ⟨.eofInList, stop⟩ fs
  | .keyOrClose, fs => noPart ⟨.eofInObject, stop⟩ ⟨.eofInObject, stop⟩ fs
  | .key, fs => noPart ⟨.eofInValue, stop⟩ ⟨.eofInObject, stop⟩ fs
  | .colon name, .object start members :: fs =>
      noValue ⟨.eofInObject, stop⟩ ⟨.eofInObject, stop⟩ stop
        (.member start members ⟨name, stop⟩ :: fs)
  | .colon _, fs => noPart ⟨.eofInObject, stop⟩ ⟨.eofInObject, stop⟩ fs
  | .next, .list start items :: fs =>
      noPart ⟨.eofInList, stop⟩ ⟨.eofInList, stop⟩ (.list start items :: fs)
  | .next, fs => noPart ⟨.eofInObject, stop⟩ ⟨.eofInObject, stop⟩ fs
  | .done tree, _ => ⟨tree, none⟩

def build (stop : Nat) (spot : Spot) (fs : List Frame) : List Located → Parsed
  | [] => atEnd stop spot fs
  | t :: ts => match step spot fs t with
    | .go spot fs => build stop spot fs ts
    | .stop p => p

end Tree

def parse (text : String) : Parsed :=
  let cs := text.toList
  Tree.build (Quotation.byteLength cs) .value [] (Token.scan 0 0 cs)

end CodeActions.Json
