import CodeActions.Proofs.Json.Document
import Mathlib.Data.List.Defs
/-!
# The tokens of a written document

The scanner finds the tokens of a text that spells lexemes, one for each of them and in their order
(`scan_written`). Strings are found to end where they do and to say what their pieces stand for, and
number literals are taken apart again.
-/
namespace CodeActions.Json
open CodeActions.Text

theorem toOption_map {ε α β : Type} (f : α → β) (r : Except ε α) :
    (f <$> r).toOption = f <$> r.toOption := by
  cases r <;> rfl

namespace Literal

private theorem digit?_digitChar : ∀ d < 10, digit? (Nat.digitChar d) = some d := by
  decide

def StopsDigits (rest : List Char) : Prop := ∀ c ∈ rest.head?, digit? c = none

private theorem digits_of_stops {rest : List Char} (hrest : StopsDigits rest) : digits rest = [] := by
  cases rest with
  | nil => rfl
  | cons c rest =>
    have hc : digit? c = none := hrest c rfl
    simp [digits, hc]

private theorem digits_numeral {ds : List Nat} (hds : ∀ d ∈ ds, d < 10) {rest : List Char}
    (hrest : StopsDigits rest) : digits (numeral ds ++ rest) = ds := by
  induction ds with
  | nil => exact digits_of_stops hrest
  | cons d ds ih =>
    have hd := digit?_digitChar d (hds d List.mem_cons_self)
    have htail := ih fun e he => hds e (List.mem_cons_of_mem _ he)
    simp only [numeral, List.map_cons, List.cons_append, digits, hd]
    exact congrArg (d :: ·) htail

@[simp] theorem length_numeral (ds : List Nat) : (numeral ds).length = ds.length :=
  List.length_map _

private theorem numeral_eq_cons {ds : List Nat} (hds : IsNumeral ds) :
    ∃ d tail, d < 10 ∧ ds = d :: tail ∧ numeral ds = Nat.digitChar d :: numeral tail := by
  obtain ⟨hne, hlt⟩ := hds
  obtain ⟨d, tail, rfl⟩ := List.exists_cons_of_ne_nil hne
  exact ⟨d, tail, hlt d List.mem_cons_self, rfl, rfl⟩

def Stops (rest : List Char) : Prop := ∀ c ∈ rest.head?, mayContinue c = false

theorem Stops.digits {rest : List Char} (h : Stops rest) : StopsDigits rest := by
  intro c hc
  have := h c hc
  simp only [mayContinue, Bool.or_eq_false_iff, Option.isSome_eq_false_iff,
    Option.isNone_iff_eq_none] at this
  exact this.1.1.1

private theorem stopsDigits_exponent {exponent : Option (Bool × List Nat)} {e : List Char}
    (he : ExponentSpelt exponent e) {rest : List Char} (hrest : Stops rest) :
    StopsDigits (e ++ rest) := by
  cases he with
  | absent => exact hrest.digits
  | digits hmark hsign hds =>
    intro c hc
    simp only [List.cons_append, List.head?_cons, Option.mem_def, Option.some.injEq] at hc
    subst hc
    rcases hmark with rfl | rfl <;> rfl

private theorem stopsDigits_fraction {fraction : Option (List Nat)} {f : List Char}
    (hf : FractionSpelt fraction f) {rest : List Char} (hrest : StopsDigits rest) :
    StopsDigits (f ++ rest) := by
  cases hf with
  | absent => exact hrest
  | digits hds =>
    intro c hc
    simp only [List.cons_append, List.head?_cons, Option.mem_def, Option.some.injEq] at hc
    subst hc
    rfl

private theorem scanFractionPart_of_spelt {fraction : Option (List Nat)} {f : List Char}
    (hf : FractionSpelt fraction f) {rest : List Char} (hrest : StopsDigits rest)
    (hdot : ∀ c ∈ rest.head?, c ≠ '.') (o : Nat) :
    scanFractionPart o (f ++ rest) = .ok (fraction, f.length) := by
  cases hf with
  | absent =>
    cases rest with
    | nil => rfl
    | cons c rest =>
      have hc : c ≠ '.' := hdot c rfl
      simp [scanFractionPart, hc]
  | @digits ds hds =>
    obtain ⟨d, tail, -, rfl, hnumeral⟩ := numeral_eq_cons hds
    have hdigits := digits_numeral hds.2 hrest
    rw [hnumeral, List.cons_append] at hdigits
    simp only [hnumeral, List.cons_append, scanFractionPart, hdigits, List.length_cons,
      length_numeral]

private theorem digitChar_ne {d : Nat} (hd : d < 10) {c : Char} (hc : digit? c = none) :
    Nat.digitChar d ≠ c := by
  rintro rfl
  rw [digit?_digitChar d hd] at hc
  cases hc

private theorem scanExponent_of_spelt {isNegative : Bool} {sign : List Char} {ds : List Nat}
    (hsign : SignSpelt isNegative sign) (hds : IsNumeral ds) {rest : List Char}
    (hrest : StopsDigits rest) (o : Nat) :
    scanExponent o (sign ++ (numeral ds ++ rest)) =
      .ok (isNegative, ds, sign.length + ds.length) := by
  obtain ⟨d, tail, hd, rfl, hnumeral⟩ := numeral_eq_cons hds
  have hdigits := digits_numeral hds.2 hrest
  rw [hnumeral, List.cons_append] at hdigits ⊢
  have hplus : Nat.digitChar d ≠ '+' := digitChar_ne hd rfl
  have hminus : Nat.digitChar d ≠ '-' := digitChar_ne hd rfl
  cases hsign with
  | absent => simp [scanExponent, hplus, hminus, hdigits]
  | plus => simp [scanExponent, hdigits]
  | minus => simp [scanExponent, hdigits]

private theorem scanExponentPart_of_spelt {exponent : Option (Bool × List Nat)} {e : List Char}
    (he : ExponentSpelt exponent e) {rest : List Char} (hrest : Stops rest) (o : Nat) :
    scanExponentPart o (e ++ rest) = .ok (exponent, e.length) := by
  cases he with
  | absent =>
    cases rest with
    | nil => rfl
    | cons c rest =>
      have hc : mayContinue c = false := hrest c rfl
      simp only [mayContinue, Bool.or_eq_false_iff, decide_eq_false_iff_not] at hc
      simp only [List.nil_append, scanExponentPart, hc, or_self, if_false, List.length_nil]
      rfl
  | @digits mark isNegative sign ds hmark hsign hds =>
    simp only [List.cons_append, List.append_assoc, scanExponentPart, if_pos hmark,
      scanExponent_of_spelt hsign hds hrest.digits]
    simp [bind, Except.bind, pure, Except.pure]

private theorem scan_of_spelt {l : Literal} {cs : List Char} (h : l.Spelt cs) {rest : List Char}
    (hrest : Stops rest) (o : Nat) : scan o (cs ++ rest) = .ok (l, cs.length) := by
  cases h with
  | @parts negative whole fraction exponent f e hwhole hzero hf he =>
    have hstopsExponent := stopsDigits_exponent he hrest
    have hdot : ∀ c ∈ (e ++ rest).head?, c ≠ '.' := by
      cases he with
      | absent =>
        intro c hc
        rintro rfl
        cases hrest _ hc
      | digits hmark =>
        intro c hc
        cases hc
        rcases hmark with rfl | rfl <;> decide
    have hdigits := digits_numeral hwhole.2 (stopsDigits_fraction hf hstopsExponent)
    have hfraction := scanFractionPart_of_spelt hf hstopsExponent hdot
    have hexponent := scanExponentPart_of_spelt he hrest
    obtain ⟨d, tail, hd, rfl, hnumeral⟩ := numeral_eq_cons hwhole
    have hminus : Nat.digitChar d ≠ '-' := digitChar_ne hd rfl
    have hsingle : ∀ a as, d :: tail = 0 :: a :: as → False := by
      intro a as has
      have hnil := hzero (a :: as) has
      cases hnil
    have hdrop : (numeral (d :: tail) ++ (f ++ (e ++ rest))).drop (tail.length + 1 + f.length) =
        e ++ rest := by
      have hwidth : tail.length + 1 = (numeral (d :: tail)).length := by simp
      rw [hwidth, ← List.drop_drop, List.drop_left, List.drop_left]
    rw [hnumeral, List.cons_append] at hdigits hdrop
    cases negative with
    | false =>
      simp [scan, hnumeral, hminus, hdigits, hfraction, hexponent, hdrop, bind, Except.bind, pure,
        Except.pure]
      omega
    | true =>
      simp [scan, hnumeral, hdigits, hfraction, hexponent, hdrop, bind, Except.bind, pure,
        Except.pure]
      omega

end Literal

namespace Quotation

private theorem ne_of_simpleEscape? {letter c : Char} (h : simpleEscape? letter = some c) :
    letter ≠ 'u' := by
  rintro rfl
  cases h

private theorem extent_chars (p : Piece) (rest : List Char) (o : Nat) :
    ∃ next, extent o (p.chars ++ rest) = (· + p.chars.length) <$> extent next rest := by
  cases p with
  | plain c h =>
    obtain ⟨hc, -, hslash⟩ := h
    have hcontrol : ¬ c.toNat < 0x20 := by omega
    exact ⟨o + c.utf8Size, by simp [Piece.chars, extent, hslash, hcontrol]⟩
  | short letter c h =>
    have hletter := ne_of_simpleEscape? h
    exact ⟨o + 2, by simp [Piece.chars, extent, hletter, h]⟩
  | code a b c d unit h => exact ⟨o + 6, by simp [Piece.chars, extent, h]⟩

private theorem extent_quoted (ps : List Piece) (rest : List Char) (o : Nat) :
    extent o (ps.flatMap Piece.chars ++ '"' :: rest) =
      .ok ((ps.flatMap Piece.chars).length + 1) := by
  induction ps generalizing o with
  | nil => simp [extent]
  | cons p ps ih =>
    obtain ⟨next, hnext⟩ := extent_chars p (ps.flatMap Piece.chars ++ '"' :: rest) o
    rw [List.flatMap_cons, List.append_assoc, hnext, ih]
    simp only [Functor.map, Except.map, List.length_append, Except.ok.injEq]
    omega

private theorem content_of_unpaired {a b c d : Char} {n : Nat} (h : hex4? a b c d = some n)
    (hlow : isLowSurrogate n = false) (hhigh : isHighSurrogate n = true) {ps : List Piece}
    (hps : ∀ e f g i m hm qs, ps ≠ .code e f g i m hm :: qs) (rest : List Char) (o : Nat) :
    (content o
      ('\\' :: 'u' :: a :: b :: c :: d :: (ps.flatMap Piece.chars ++ '"' :: rest))).toOption =
      none := by
  cases ps with
  | nil => simp [content, h, hlow, hhigh, Except.toOption]
  | cons p ps =>
    cases p with
    | plain e he => simp [Piece.chars, content, h, hlow, hhigh, he.2.2, Except.toOption]
    | short letter e he =>
      have hletter := ne_of_simpleEscape? he
      simp [Piece.chars, content, h, hlow, hhigh, hletter, Except.toOption]
    | code e f g i m hm => exact absurd rfl (hps e f g i m hm ps)

private theorem content_quoted (ps : List Piece) (rest : List Char) (o : Nat) :
    (content o (ps.flatMap Piece.chars ++ '"' :: rest)).toOption = Piece.decode ps := by
  fun_induction Piece.decode ps generalizing o with
  | case1 => simp [content, Except.toOption]
  | case2 c h ps ih =>
    obtain ⟨hc, -, hslash⟩ := h
    have hcontrol : ¬ c.toNat < 0x20 := by omega
    rw [List.flatMap_cons]
    simp [Piece.chars, content, hslash, hcontrol, toOption_map, ih]
  | case3 letter c h ps ih =>
    have hletter := ne_of_simpleEscape? h
    rw [List.flatMap_cons]
    simp [Piece.chars, content, hletter, h, toOption_map, ih]
  | case4 a b c d n h ps hlow =>
    rw [List.flatMap_cons]
    simp [Piece.chars, content, h, hlow, Except.toOption]
  | case5 a b c d n h hlow hhigh e f g i m hm ps hpair ih =>
    rw [List.flatMap_cons, List.flatMap_cons]
    simp [Piece.chars, content, h, hlow, hhigh, hm, hpair, toOption_map, ih]
  | case6 a b c d n h hlow hhigh e f g i m hm ps hpair =>
    rw [List.flatMap_cons, List.flatMap_cons]
    simp [Piece.chars, content, h, hlow, hhigh, hm, hpair, Except.toOption]
  | case7 a b c d n h ps hlow hhigh hps =>
    rw [Bool.not_eq_true] at hlow
    exact content_of_unpaired h hlow hhigh (fun e f g i m hm qs => hps e f g i m hm qs) rest o
  | case8 a b c d n h ps hlow hhigh ih =>
    rw [List.flatMap_cons]
    simp [Piece.chars, content, h, hlow, hhigh, toOption_map, ih]

end Quotation

namespace Token

/-- The tokens for lexemes. A faulty scalar is one whose lexeme comes to nothing. -/
inductive Is : Token → Lexeme → Prop
  | openList : Is .openList .openList
  | closeList : Is .closeList .closeList
  | openObject : Is .openObject .openObject
  | closeObject : Is .closeObject .closeObject
  | comma : Is .comma .comma
  | colon : Is .colon .colon
  | null : Is (.scalar .null) .null
  | bool (b : Bool) : Is (.scalar (.bool b)) (.bool b)
  | number {n : Except Fault Number} {l : Literal} (h : n.toOption = l.number?) :
      Is (.scalar (.number n)) (.number l)
  | text {s : Except Fault String} {ps : List Piece} (h : s.toOption = Piece.text? ps) :
      Is (.scalar (.text s)) (.text ps)

theorem Is.isBroken {t : Token} {x : Lexeme} (h : t.Is x) : t.isBroken = false := by
  cases h <;> rfl

private theorem text_quoted (ps : List Piece) (rest : List Char) (o : Nat) :
    ∃ t, text o (ps.flatMap Piece.chars ++ '"' :: rest) = (t, (Piece.quoted ps).length) ∧
      t.Is (.text ps) := by
  have hcontent := Quotation.content_quoted ps rest (o + 1)
  have hlength : (Piece.quoted ps).length = (ps.flatMap Piece.chars).length + 1 + 1 := by
    simp only [Piece.quoted, List.length_cons, List.length_append, List.length_nil]
  rw [text, Quotation.extent_quoted, hlength]
  refine ⟨_, rfl, .text ?_⟩
  rw [Piece.text?, ← hcontent]
  exact toOption_map String.ofList _

private theorem number_of_spelt {l : Literal} {cs : List Char} (h : l.Spelt cs) {rest : List Char}
    (hrest : Literal.Stops rest) (o : Nat) :
    ∃ t, number o (cs ++ rest) = (t, cs.length) ∧ t.Is (.number l) := by
  rw [number, Literal.scan_of_spelt h hrest]
  cases hvalue : l.value with
  | ok n =>
    simp only [hvalue]
    refine ⟨_, rfl, .number ?_⟩
    rw [Literal.number?, hvalue]
    rfl
  | error far =>
    have hnone : l.number? = none := by rw [Literal.number?, hvalue]; rfl
    cases far with
    | none =>
      simp only [hvalue]
      refine ⟨_, rfl, .number ?_⟩
      rw [hnone]
      rfl
    | some k =>
      simp only [hvalue]
      refine ⟨_, rfl, .number ?_⟩
      rw [hnone]
      rfl

private theorem first_eq_number {c : Char} (hc : c = '-' ∨ (digit? c).isSome) (o : Nat)
    (cs : List Char) : first o c cs = number o (c :: cs) := by
  unfold first
  split <;> try exact absurd hc (by decide)
  rw [if_pos hc]

private theorem isBlank_of_digit {c : Char} (hc : (digit? c).isSome) : isBlank c = false := by
  cases hblank : isBlank c with
  | false => rfl
  | true =>
    simp only [isBlank, Bool.or_eq_true, decide_eq_true_eq] at hblank
    rcases hblank with ((rfl | rfl) | rfl) | rfl <;> cases hc

private theorem eq_cons_of_spelt {l : Literal} {cs : List Char} (h : l.Spelt cs) :
    ∃ c tail, cs = c :: tail ∧ (c = '-' ∨ (digit? c).isSome) := by
  cases h with
  | @parts negative whole fraction exponent f e hwhole hzero hf he =>
    obtain ⟨d, tail, hd, -, hnumeral⟩ := Literal.numeral_eq_cons hwhole
    cases negative with
    | true => exact ⟨_, _, rfl, .inl rfl⟩
    | false =>
      refine ⟨Nat.digitChar d, Literal.numeral tail ++ (f ++ e), ?_, .inr ?_⟩
      · simp [hnumeral]
      · rw [Literal.digit?_digitChar d hd]
        rfl

private theorem first_of_lexeme {x : Lexeme} {cs : List Char} (h : x.Spelt cs) {rest : List Char}
    (hend : x.EndsBefore rest) (o : Nat) :
    ∃ c tail t, cs = c :: tail ∧ isBlank c = false ∧
      first o c (tail ++ rest) = (t, cs.length) ∧ t.Is x := by
  cases h with
  | openList => exact ⟨_, _, _, rfl, rfl, rfl, .openList⟩
  | closeList => exact ⟨_, _, _, rfl, rfl, rfl, .closeList⟩
  | openObject => exact ⟨_, _, _, rfl, rfl, rfl, .openObject⟩
  | closeObject => exact ⟨_, _, _, rfl, rfl, rfl, .closeObject⟩
  | comma => exact ⟨_, _, _, rfl, rfl, rfl, .comma⟩
  | colon => exact ⟨_, _, _, rfl, rfl, rfl, .colon⟩
  | null => exact ⟨_, _, _, rfl, rfl, rfl, .null⟩
  | true => exact ⟨_, _, _, rfl, rfl, rfl, .bool true⟩
  | false => exact ⟨_, _, _, rfl, rfl, rfl, .bool false⟩
  | number h =>
    have hstops : Literal.Stops rest := by
      cases rest with
      | nil => simp [Literal.Stops]
      | cons c rest => simpa [Literal.Stops, Lexeme.EndsBefore] using hend
    obtain ⟨t, ht, his⟩ := number_of_spelt h hstops o
    obtain ⟨c, tail, rfl, hc⟩ := eq_cons_of_spelt h
    refine ⟨c, tail, t, rfl, ?_, ?_, his⟩
    · rcases hc with rfl | hdigit
      · rfl
      · exact isBlank_of_digit hdigit
    · rw [first_eq_number hc]
      exact ht
  | text ps =>
    obtain ⟨t, ht, his⟩ := text_quoted ps rest o
    refine ⟨_, _, t, rfl, rfl, ?_, his⟩
    rw [List.append_assoc]
    exact ht

private theorem scan_skip (pre rest : List Char) (o : Nat) :
    ∃ next, scan pre.length o (pre ++ rest) = scan 0 next rest := by
  induction pre generalizing o with
  | nil => exact ⟨o, rfl⟩
  | cons c pre ih => exact ih (o + c.utf8Size)

private theorem scan_blanks {w : List Char} (hw : ∀ c ∈ w, isBlank c) (rest : List Char) (o : Nat) :
    ∃ next, scan 0 o (w ++ rest) = scan 0 next rest := by
  induction w generalizing o with
  | nil => exact ⟨o, rfl⟩
  | cons c w ih =>
    have hc : isBlank c = true := hw c List.mem_cons_self
    obtain ⟨next, hnext⟩ := ih (fun d hd => hw d (List.mem_cons_of_mem _ hd)) (o + c.utf8Size)
    refine ⟨next, ?_⟩
    rw [List.cons_append, scan, if_pos hc, hnext]

theorem scan_written {xs : List Lexeme} {cs : List Char} (h : Lexeme.Written xs cs) (o : Nat) :
    List.Forall₂ (fun t x => t.token.Is x) (scan 0 o cs) xs := by
  induction h generalizing o with
  | @blanks w hw =>
    obtain ⟨next, hnext⟩ := scan_blanks hw [] o
    rw [List.append_nil] at hnext
    rw [hnext]
    exact .nil
  | @lexeme w x cs xs rest hw hx hend hrest ih =>
    obtain ⟨here, hhere⟩ := scan_blanks hw (cs ++ rest) o
    obtain ⟨c, tail, t, rfl, hblank, hfirst, his⟩ := first_of_lexeme hx hend here
    obtain ⟨next, hnext⟩ := scan_skip tail rest (here + c.utf8Size)
    rw [hhere, List.cons_append, scan, hblank, if_neg Bool.false_ne_true, hfirst]
    simp only [his.isBroken, if_neg Bool.false_ne_true, List.length_cons, Nat.add_sub_cancel, hnext]
    exact .cons his (ih next)

end Token
end CodeActions.Json
