import CodeActions.Proofs.Json.Integer
import CodeActions.Proofs.Json.Lexing
/-!
# Printed documents

The compact text of a value without doubles spells a document (`spells_toText`), and that document
is the value again (`value?_document`).
-/
namespace CodeActions.Json
open Text

namespace Piece
open Quotation

private theorem hex4?_digit : ∀ n < 0x10, hex4? '0' '0' '0' (Nat.digitChar n) = some n := by decide

private theorem hex4?_teen : ∀ n < 0x20, 0x10 ≤ n →
    hex4? '0' '0' '1' (Nat.digitChar (n - 0x10)) = some n := by decide

def ofChar (c : Char) : Piece :=
  if hquote : c = '"' then .short '"' '"' rfl
  else if hslash : c = '\\' then .short '\\' '\\' rfl
  else if c = '\x08' then .short 'b' '\x08' rfl
  else if c = '\t' then .short 't' '\t' rfl
  else if c = '\n' then .short 'n' '\n' rfl
  else if c = '\x0c' then .short 'f' '\x0c' rfl
  else if c = '\r' then .short 'r' '\r' rfl
  else if h : c.toNat < 0x10 then
    .code '0' '0' '0' (Nat.digitChar c.toNat) c.toNat (hex4?_digit _ h)
  else if h' : c.toNat < 0x20 then
    .code '0' '0' '1' (Nat.digitChar (c.toNat - 0x10)) c.toNat
      (hex4?_teen _ h' (Nat.le_of_not_lt h))
  else .plain c ⟨Nat.le_of_not_lt h', hquote, hslash⟩

def ofText (s : String) : List Piece := s.toList.map ofChar

private theorem chars_ofChar (c : Char) : (ofChar c).chars = jsonEscape c := by
  unfold ofChar
  simp only [apply_dite chars, apply_ite chars]
  rfl

private theorem quoted_ofText (s : String) : quoted (ofText s) = jsonQuote s := by
  have hchars : chars ∘ ofChar = jsonEscape := funext chars_ofChar
  rw [quoted, ofText, List.flatMap_map, jsonQuote]
  change '"' :: ((s.toList.flatMap (chars ∘ ofChar)) ++ ['"']) = _
  rw [hchars]
  rfl

private theorem decode_code {a b c d : Char} {n : Nat} (h : hex4? a b c d = some n) (hn : n < 0x20)
    (ps : List Piece) : decode (.code a b c d n h :: ps) = (Char.ofNat n :: ·) <$> decode ps := by
  have hsmall : ∀ n < 0x20, isLowSurrogate n = false ∧ isHighSurrogate n = false := by decide
  rw [decode.eq_def]
  simp [(hsmall n hn).1, (hsmall n hn).2]

private theorem decode_ofChar (c : Char) (ps : List Piece) :
    decode (ofChar c :: ps) = (c :: ·) <$> decode ps := by
  unfold ofChar
  iterate 7
    split
    case isTrue h => rw [h]; rfl
  split
  case isTrue h => rw [decode_code _ (Nat.lt_trans h (by decide)), Char.ofNat_toNat]
  split
  case isTrue h => rw [decode_code _ h, Char.ofNat_toNat]
  rfl

theorem text?_ofText (s : String) : text? (ofText s) = some s := by
  have hdecode : ∀ cs : List Char, decode (cs.map ofChar) = some cs := by
    intro cs
    induction cs with
    | nil => rfl
    | cons c cs ih => rw [List.map_cons, decode_ofChar, ih]; rfl
  rw [text?, ofText, hdecode]
  exact congrArg some (String.ofList_toList)

end Piece
namespace Number

def IsInt : Number → Prop
  | .int _ => True
  | .float _ => False

def Fits : Number → Prop
  | .int i => Literal.InRange i
  | .float _ => True

end Number

namespace Value

mutual
def AllNumbers (P : Number → Prop) : Value → Prop
  | .number n => P n
  | .list vs => AllNumbersIn P vs
  | .object ms => AllNumbersAmong P ms
  | _ => True

def AllNumbersIn (P : Number → Prop) : List Value → Prop
  | [] => True
  | v :: vs => v.AllNumbers P ∧ AllNumbersIn P vs

def AllNumbersAmong (P : Number → Prop) : List (String × Value) → Prop
  | [] => True
  | (_, v) :: ms => v.AllNumbers P ∧ AllNumbersAmong P ms
end

mutual
/-- The document that a value without doubles is written as. -/
def document : Value → Document
  | .null | .number (.float _) => .null
  | .bool b => .bool b
  | .number (.int i) => .number (.ofInt i)
  | .text s => .text (Piece.ofText s)
  | .list vs => .list (documentsOfItems vs)
  | .object ms => .object (documentsOfMembers ms)

def documentsOfItems : List Value → List Document
  | [] => []
  | v :: vs => v.document :: documentsOfItems vs

def documentsOfMembers : List (String × Value) → List (List Piece × Document)
  | [] => []
  | (k, v) :: ms => (Piece.ofText k, v.document) :: documentsOfMembers ms
end

end Value

namespace Lexeme.Written
variable {xs : List Lexeme} {rest : List Char}

theorem cons {x : Lexeme} {cs : List Char} (hx : x.Spelt cs) (hend : x.EndsBefore rest)
    (h : Written xs rest) : Written (x :: xs) (cs ++ rest) :=
  .lexeme (w := []) (List.forall_mem_nil _) hx hend h

theorem mark {x : Lexeme} {c : Char} (hx : x.Spelt [c]) (hend : x.EndsBefore rest)
    (h : Written xs rest) : Written (x :: xs) (c :: rest) := cons hx hend h

theorem quoted (s : String) (h : Written xs rest) :
    Written (.text (Piece.ofText s) :: xs) (jsonQuote s ++ rest) := by
  have hx := Spelt.text (Piece.ofText s)
  rw [Piece.quoted_ofText] at hx
  exact cons hx trivial h

private theorem endsBefore_of_stops (x : Lexeme) (h : Literal.Stops rest) : x.EndsBefore rest := by
  cases x <;> cases rest <;> first | trivial | exact h _ rfl

end Lexeme.Written

namespace Value
open Lexeme Lexeme.Written

private theorem stops_renderItems (vs : List Value) (rest : List Char) :
    Literal.Stops (renderItems vs ++ rest) := by
  cases vs <;> (rw [renderItems]; rintro c ⟨⟩; decide)

private theorem stops_renderMembers (ms : List (String × Value)) (rest : List Char) :
    Literal.Stops (renderMembers ms ++ rest) := by
  cases ms <;> (rw [renderMembers]; rintro c ⟨⟩; decide)

mutual
private theorem written_render : (v : Value) → v.AllNumbers Number.IsInt → {xs : List Lexeme} →
    {rest : List Char} → Literal.Stops rest → Written xs rest →
    Written (v.document.lexemes ++ xs) (v.render ++ rest)
  | .null, _, xs, rest, _, h => cons .null trivial h
  | .bool true, _, xs, rest, _, h => cons .true trivial h
  | .bool false, _, xs, rest, _, h => cons .false trivial h
  | .number (.int i), _, xs, rest, hrest, h =>
    cons (.number (Literal.spelt_ofInt i)) (endsBefore_of_stops _ hrest) h
  | .number (.float f), hv, _, _, _, _ => False.elim hv
  | .text s, _, xs, rest, _, h => quoted s h
  | .list [], _, xs, rest, _, h => mark .openList trivial (mark .closeList trivial h)
  | .list (v :: vs), ⟨hv, hvs⟩, xs, rest, _, h => by
    have hitems := written_renderItems vs hvs h
    have hitem := written_render v hv (stops_renderItems vs rest) hitems
    simpa only [render, document, documentsOfItems, Document.lexemes, List.cons_append,
      List.append_assoc] using mark .openList trivial hitem
  | .object [], _, xs, rest, _, h => mark .openObject trivial (mark .closeObject trivial h)
  | .object ((k, v) :: ms), ⟨hv, hms⟩, xs, rest, _, h => by
    have hmembers := written_renderMembers ms hms h
    have hvalue := written_render v hv (stops_renderMembers ms rest) hmembers
    have hmember := quoted k (mark .colon trivial hvalue)
    simpa only [render, document, documentsOfMembers, Document.lexemes, List.cons_append,
      List.append_assoc] using mark .openObject trivial hmember

private theorem written_renderItems : (vs : List Value) → AllNumbersIn Number.IsInt vs →
    {xs : List Lexeme} → {rest : List Char} → Written xs rest →
    Written (Document.lexemesOfItems (documentsOfItems vs) ++ xs) (renderItems vs ++ rest)
  | [], _, xs, rest, h => cons .closeList trivial h
  | v :: vs, ⟨hv, hvs⟩, xs, rest, h => by
    have hitems := written_renderItems vs hvs h
    have hitem := written_render v hv (stops_renderItems vs rest) hitems
    simpa only [renderItems, documentsOfItems, Document.lexemesOfItems, List.cons_append,
      List.append_assoc] using mark .comma trivial hitem

private theorem written_renderMembers : (ms : List (String × Value)) →
    AllNumbersAmong Number.IsInt ms → {xs : List Lexeme} → {rest : List Char} →
    Written xs rest →
    Written (Document.lexemesOfMembers (documentsOfMembers ms) ++ xs) (renderMembers ms ++ rest)
  | [], _, xs, rest, h => cons .closeObject trivial h
  | (k, v) :: ms, ⟨hv, hms⟩, xs, rest, h => by
    have hmembers := written_renderMembers ms hms h
    have hvalue := written_render v hv (stops_renderMembers ms rest) hmembers
    have hmember := quoted k (mark .colon trivial hvalue)
    simpa only [renderMembers, documentsOfMembers, Document.lexemesOfMembers, List.cons_append,
      List.append_assoc] using mark .comma trivial hmember
end

theorem spells_toText {v : Value} (hv : v.AllNumbers Number.IsInt) :
    v.document.Spells v.toText := by
  have hstops : Literal.Stops [] := by rintro _ ⟨⟩
  have hwritten := written_render v hv hstops (.blanks (List.forall_mem_nil _))
  rw [List.append_nil, List.append_nil] at hwritten
  rw [Document.Spells, toText, String.toList_ofList]
  exact hwritten

mutual
/-- A value without doubles and with integers of 64 bits is what its document is. -/
theorem value?_document : (v : Value) → v.AllNumbers Number.IsInt → v.AllNumbers Number.Fits →
    v.document.value? = some v
  | .null, _, _ | .bool _, _, _ => rfl
  | .number (.int i), _, hfits => by
    rw [document, Document.value?, Literal.number?_ofInt hfits]
    rfl
  | .number (.float f), hint, _ => False.elim hint
  | .text s, _, _ => by
    rw [document, Document.value?, Piece.text?_ofText]
    rfl
  | .list vs, hint, hfits => by
    rw [document, Document.value?, valuesOfItems?_documents vs hint hfits]
    rfl
  | .object ms, hint, hfits => by
    rw [document, Document.value?, valuesOfMembers?_documents ms hint hfits]
    rfl

private theorem valuesOfItems?_documents : (vs : List Value) → AllNumbersIn Number.IsInt vs →
    AllNumbersIn Number.Fits vs →
    Document.valuesOfItems? (documentsOfItems vs) = some vs
  | [], _, _ => rfl
  | v :: vs, ⟨hint, hints⟩, ⟨hfits, hfitsAll⟩ => by
    rw [documentsOfItems, Document.valuesOfItems?, value?_document v hint hfits,
      valuesOfItems?_documents vs hints hfitsAll]
    rfl

theorem valuesOfMembers?_documents : (ms : List (String × Value)) →
    AllNumbersAmong Number.IsInt ms → AllNumbersAmong Number.Fits ms →
    Document.valuesOfMembers? (documentsOfMembers ms) = some ms
  | [], _, _ => rfl
  | (k, v) :: ms, ⟨hint, hints⟩, ⟨hfits, hfitsAll⟩ => by
    rw [documentsOfMembers, Document.valuesOfMembers?, Piece.text?_ofText,
      value?_document v hint hfits, valuesOfMembers?_documents ms hints hfitsAll]
    rfl
end

end Value
end CodeActions.Json
