import CodeActions.Proofs.Json.Integer
import CodeActions.Proofs.Yaml.Quoted
import CodeActions.Yaml.Resolve
/-!
# Bare words of JSON

The literals of JSON and its integers are plain scalars in a flow collection, up to the indicator
after them, and mean there what they mean in JSON.
-/
namespace CodeActions.Yaml
open CodeActions.Json CodeActions.Text

def isWordChar (c : Char) : Bool := c.isAlphanum || c = '-'

def closesValue (c : Char) : Bool := c = ',' || c = ']' || c = '\x7d'

theorem ne_of_isWordChar {c d : Char} (hc : isWordChar c = true) (hd : isWordChar d = false) :
    c ≠ d := by
  rintro rfl
  rw [hc] at hd
  cases hd

theorem isBlank_of_isWordChar {c : Char} (h : isWordChar c = true) : isBlank c = false := by
  simp [isBlank, ne_of_isWordChar h (d := ' ') rfl, ne_of_isWordChar h (d := '\t') rfl]

theorem isBreak_of_isWordChar {c : Char} (h : isWordChar c = true) : isBreak c = false := by
  simp [isBreak, ne_of_isWordChar h (d := '\n') rfl, ne_of_isWordChar h (d := '\u2028') (by decide),
    ne_of_isWordChar h (d := '\u2029') (by decide)]

theorem visible_of_isWordChar {c : Char} (h : isWordChar c = true) :
    0x20 ≤ c.toNat ∧ c.toNat < 0x7F := by
  have halphanum : c.isAlphanum =
      (decide (65 ≤ c.val ∧ c.val ≤ 90) || (decide (97 ≤ c.val) && decide (c.val ≤ 122)) ||
        (decide (48 ≤ c.val) && decide (c.val ≤ 57))) := rfl
  simp only [isWordChar, halphanum, Bool.or_eq_true, Bool.and_eq_true, decide_eq_true_eq] at h
  rcases h with hletter | rfl
  · simp [UInt32.le_iff_toNat_le] at hletter
    omega
  · decide

/-- Whether a text is a literal or an integer as far as its characters go. -/
structure IsWord (cs : List Char) : Prop where
  isWordChar : ∀ c ∈ cs, isWordChar c = true
  starts : ∃ c r, cs = c :: r ∧
    (c.isAlphanum = true ∨ c = '-' ∧ ∃ d r', r = d :: r' ∧ d.isAlphanum = true)

theorem scanPlain_word {cs : List Char} (hcs : ∀ c ∈ cs, isWordChar c = true) {d : Char}
    (hd : closesValue d = true) (m : Mark) (rest : List Char) :
    scanPlain true 0 {} (placed m (cs ++ d :: rest)) =
      some (⟨cs, placed (endMark m cs) (d :: rest)⟩, false) := by
  induction cs generalizing m with
  | nil =>
    simp only [closesValue, Bool.or_eq_true, decide_eq_true_eq] at hd
    rcases hd with (rfl | rfl) | rfl <;> cases rest <;> rfl
  | cons c cs ih =>
    obtain ⟨hc, hcs⟩ := List.forall_mem_cons.mp hcs
    have hne {d : Char} (hd : isWordChar d = false) : c ≠ d := ne_of_isWordChar hc hd
    have hcolon : badColon true (⟨c, m⟩ :: placed (m.after c) (cs ++ d :: rest)) = false := by
      unfold badColon
      split
      case h_1 heq =>
        obtain ⟨rfl, -⟩ := List.cons.inj heq
        simp [hne (d := ':') rfl]
      case h_2 => rfl
    have hends : endsPlain true (⟨c, m⟩ :: placed (m.after c) (cs ++ d :: rest)) = false := by
      simp [endsPlain, hne (d := ':') rfl, hne (d := ',') rfl, hne (d := '[') rfl,
        hne (d := ']') rfl, hne (d := '\x7b') rfl, hne (d := '\x7d') rfl]
    rw [List.cons_append, placed, scanPlain, ih hcs]
    simp [isBlank_of_isWordChar hc, isBreak_of_isWordChar hc, hcolon, hends, Gap.isEmpty,
      Scanned.after, Gap.fold, endMark_cons]

section integers
open Literal

private theorem hexDigit?_digitChar : ∀ d < 10, hexDigit? (Nat.digitChar d) = some d := by decide

private theorem isDigit_digitChar : ∀ d < 10, (Nat.digitChar d).isDigit = true := by decide

private theorem number?_numeral {ds : List Nat} (h : IsNumeral ds) :
    Text.number? 10 (numeral ds) = some (amount ds) := by
  have hfold (ds : List Nat) (hds : ∀ d ∈ ds, d < 10) (n : Nat) :
      (numeral ds).foldlM (fun n c => do
        let d ← hexDigit? c
        if d < 10 then some (n * 10 + d) else none) n =
        some (ds.foldl (fun n d => n * 10 + d) n) := by
    induction ds generalizing n with
    | nil => rfl
    | cons d ds ih =>
      obtain ⟨hd, hds⟩ := List.forall_mem_cons.mp hds
      rw [numeral, List.map_cons, List.foldlM_cons, hexDigit?_digitChar d hd]
      simp only [Option.bind_eq_bind, Option.bind_some, if_pos hd, List.foldl_cons]
      exact ih hds _
  rw [Text.number?, if_neg, hfold ds h.2 0, amount]
  simpa [numeral] using h.1

private theorem number?_toDigits (n : Nat) : Text.number? 10 (Nat.toDigits 10 n) = some n := by
  rw [← numeral_decimal, number?_numeral (isNumeral_decimal n), amount_decimal]

/-- Whether digits have neither a sign nor a zero in front of others. -/
structure IsPlainDigits (cs : List Char) : Prop where
  based : based? cs = none
  padded : isPadded cs = false
  noPlus : ∀ r, cs ≠ '+' :: r
  noMinus : ∀ r, cs ≠ '-' :: r

private theorem isPlainDigits_of_ne {c : Char} (hzero : c ≠ '0') (hplus : c ≠ '+') (hminus : c ≠ '-')
    (cs : List Char) : IsPlainDigits (c :: cs) where
  based := by
    unfold based?
    split <;> simp_all
  padded := by
    unfold isPadded
    split
    case h_1 heq => exact absurd (List.cons.inj heq).1 hplus
    case h_2 heq => exact absurd (List.cons.inj heq).1 hminus
    case h_3 =>
      dsimp only
      split
      case h_1 heq => exact absurd (List.cons.inj heq).1 hzero
      case h_2 => rfl
  noPlus r heq := hplus (List.cons.inj heq).1
  noMinus r heq := hminus (List.cons.inj heq).1

private theorem isPlainDigits_toDigits (n : Nat) : IsPlainDigits (Nat.toDigits 10 n) := by
  obtain ⟨hne, hlt⟩ := isNumeral_decimal n
  have hdigit : ∀ d < 10, Nat.digitChar d ≠ '+' ∧ Nat.digitChar d ≠ '-' ∧
      (d ≠ 0 → Nat.digitChar d ≠ '0') := by decide
  rw [← numeral_decimal]
  obtain ⟨d, ds, hds⟩ := List.exists_cons_of_ne_nil hne
  obtain ⟨hplus, hminus, hzero⟩ := hdigit d (hlt d (hds ▸ List.mem_cons_self))
  by_cases hd : d = 0
  · subst hd
    rw [hds, eq_zero_of_decimal hds]
    exact ⟨rfl, rfl, fun r h => (by cases h), fun r h => (by cases h)⟩
  · rw [hds]
    exact isPlainDigits_of_ne (hzero hd) hplus hminus (numeral ds)

theorem nat?_toDigits (n : Nat) : nat? (Nat.toDigits 10 n) = some n := by
  have hplain := isPlainDigits_toDigits n
  rw [nat?, hplain.based, hplain.padded, number?_toDigits]
  · rfl
  · exact hplain.noPlus

private theorem int?_intText (i : Int) : int? (intText i) = some (i.natAbs, decide (i < 0)) := by
  cases i with
  | ofNat n =>
    rw [intText, int?, nat?_toDigits]
    · rfl
    · exact (isPlainDigits_toDigits n).noMinus
  | negSucc n =>
    have hplain := isPlainDigits_toDigits (n + 1)
    rw [intText, int?, hplain.based, hplain.padded, number?_toDigits,
      decide_eq_true (Int.negSucc_lt_zero n)]
    rfl

private theorem intFound?_intText {i : Int} (h : InRange i) : intFound? (intText i) = some (.int i) := by
  obtain ⟨hlow, hhigh⟩ := h
  have hword : Nat.pow 2 64 = 2 ^ 64 := rfl
  rw [intFound?, int?_intText]
  by_cases hi : i < 0
  · rw [decide_eq_true hi]
    have hle : i.natAbs ≤ Nat.pow 2 63 := by omega
    have hvalue : -(i.natAbs : Int) = i := by omega
    simp only [hle, if_true, hvalue]
  · rw [decide_eq_false hi]
    have hlt : i.natAbs < Nat.pow 2 64 := by omega
    have hvalue : (i.natAbs : Int) = i := by omega
    simp only [hlt, if_true, hvalue]

private theorem exists_toDigits (n : Nat) :
    ∃ c cs, Nat.toDigits 10 n = c :: cs ∧ ∀ d ∈ c :: cs, d.isDigit = true := by
  obtain ⟨hne, hlt⟩ := isNumeral_decimal n
  obtain ⟨d, ds, hds⟩ := List.exists_cons_of_ne_nil hne
  refine ⟨Nat.digitChar d, numeral ds, by rw [← numeral_decimal, hds]; rfl, fun c hc => ?_⟩
  obtain ⟨e, he, rfl⟩ := List.mem_map.mp (show c ∈ numeral (d :: ds) from hc)
  exact isDigit_digitChar e (hlt e (hds ▸ he))

theorem isWord_intText (i : Int) : IsWord (intText i) := by
  have halphanum {c : Char} (hc : c.isDigit = true) : c.isAlphanum = true := by
    simp [Char.isAlphanum, hc]
  have hword {cs : List Char} (h : ∀ d ∈ cs, d.isDigit = true) : ∀ d ∈ cs, isWordChar d = true :=
    fun d hd => by simp [isWordChar, halphanum (h d hd)]
  cases i with
  | ofNat n =>
    obtain ⟨c, cs, hcs, hdigits⟩ := exists_toDigits n
    rw [intText, hcs]
    exact ⟨hword hdigits, c, cs, rfl, .inl (halphanum (hdigits c List.mem_cons_self))⟩
  | negSucc n =>
    obtain ⟨c, cs, hcs, hdigits⟩ := exists_toDigits (n + 1)
    rw [intText, hcs]
    exact ⟨List.forall_mem_cons.mpr ⟨rfl, hword hdigits⟩, '-', _, rfl,
      .inr ⟨rfl, c, cs, rfl, halphanum (hdigits c List.mem_cons_self)⟩⟩

private theorem exists_intText (i : Int) : ∃ c cs, intText i = c :: cs ∧ (c.isDigit = true ∨ c = '-') := by
  cases i with
  | ofNat n =>
    obtain ⟨c, cs, hcs, hdigits⟩ := exists_toDigits n
    exact ⟨c, cs, hcs, .inl (hdigits c List.mem_cons_self)⟩
  | negSucc n => exact ⟨'-', _, rfl, .inr rfl⟩

private theorem ne_of_intText {i : Int} {s : String}
    (hs : (s.toList.head?.any fun c => c.isDigit || c = '-') = false) :
    String.ofList (intText i) ≠ s := by
  obtain ⟨c, cs, hcs, hc⟩ := exists_intText i
  rintro rfl
  rw [String.toList_ofList, hcs] at hs
  rcases hc with hdigit | rfl
  · simp [hdigit] at hs
  · simp at hs

theorem not_null_intText (i : Int) :
    ((String.ofList (intText i)).isEmpty || isNull (String.ofList (intText i))) = false := by
  have hempty : (String.ofList (intText i)).isEmpty = false := by
    rw [Bool.eq_false_iff, ne_eq, String.isEmpty_iff]
    exact ne_of_intText rfl
  simp [hempty, isNull, ne_of_intText (s := "null") rfl,
    ne_of_intText (s := "Null") rfl, ne_of_intText (s := "NULL") rfl,
    ne_of_intText (s := "~") rfl]

theorem resolvePlain_intText {i : Int} (h : InRange i) :
    resolvePlain (String.ofList (intText i)) = .int i := by
  have hbool : bool? (String.ofList (intText i)) = none := by
    simp [bool?, ne_of_intText (s := "true") rfl, ne_of_intText (s := "True") rfl,
      ne_of_intText (s := "TRUE") rfl, ne_of_intText (s := "false") rfl,
      ne_of_intText (s := "False") rfl, ne_of_intText (s := "FALSE") rfl]
  rw [resolvePlain, not_null_intText, hbool, String.toList_ofList, intFound?_intText h]
  rfl

end integers

end CodeActions.Yaml
