import CodeActions.Proofs.Json.Shape
/-!
# Integer literals

Which literals are integers, and which ones. A literal is an integer of 64 bits exactly when it has
no fraction and no exponent and its digits stay within 64 bits (`number?_eq_int_iff`); a minus sign
needs an amount that is neither zero nor beyond the least integer. `ofInt` is the literal that an
integer is written as.
-/
namespace CodeActions.Json.Literal

private theorem le_foldl_digits (n : Nat) (ds : List Nat) :
    n ≤ ds.foldl (fun n d => n * 10 + d) n := by
  induction ds generalizing n with
  | nil => exact Nat.le_refl n
  | cons d ds ih =>
    have hstep : n ≤ n * 10 + d := by omega
    exact Nat.le_trans hstep (ih (n * 10 + d))

private theorem leading_of_le {limit n : Nat} {ds : List Nat}
    (h : ds.foldl (fun n d => n * 10 + d) n ≤ limit) :
    leading limit n ds = (ds.foldl (fun n d => n * 10 + d) n, []) := by
  induction ds generalizing n with
  | nil => rfl
  | cons d ds ih =>
    rw [leading, if_pos (Nat.le_trans (le_foldl_digits _ ds) h)]
    exact ih h

private theorem le_of_leading {limit n m : Nat} {ds : List Nat} (hn : n ≤ limit)
    (h : leading limit n ds = (m, [])) :
    m = ds.foldl (fun n d => n * 10 + d) n ∧ m ≤ limit := by
  induction ds generalizing n with
  | nil =>
    obtain rfl : n = m := congrArg Prod.fst h
    exact ⟨rfl, hn⟩
  | cons d ds ih =>
    rw [leading] at h
    split at h
    case isTrue hd => exact ih hd h
    case isFalse hd => cases congrArg Prod.snd h

/-- The integers that literals of 64 bits are: those without a sign up to the greatest word, and
those with one from minus one to the least integer. -/
def Fits (negative : Bool) (n : Nat) : Prop :=
  if negative then 0 < n ∧ n ≤ Nat.pow 2 63 else n ≤ maxWord

private theorem number?_ne_int {l : Literal}
    (h : ¬(l.fraction = none ∧ l.exponent = none ∧ (leading maxWord 0 l.whole).2 = [])) (i : Int) :
    l.number? ≠ some (.int i) := by
  intro hi
  unfold number? value at hi
  split at hi
  split at hi
  case h_1 hfraction hexponent hspare => exact h ⟨hfraction, hexponent, by simp_all⟩
  case h_2 =>
    dsimp only at hi
    repeat' split at hi
    all_goals simp [Except.toOption] at hi

theorem number?_eq_int_iff (l : Literal) (i : Int) :
    l.number? = some (.int i) ↔
      l.fraction = none ∧ l.exponent = none ∧ Fits l.negative (amount l.whole) ∧
        i = if l.negative then -(amount l.whole : Int) else amount l.whole := by
  by_cases h : l.fraction = none ∧ l.exponent = none ∧ (leading maxWord 0 l.whole).2 = []
  · obtain ⟨hfraction, hexponent, hspare⟩ := h
    obtain ⟨hn, hle⟩ := le_of_leading (Nat.zero_le _) (Prod.ext rfl hspare)
    change _ = amount l.whole at hn
    rw [hn] at hle
    have hvalue : leading maxWord 0 l.whole = (amount l.whole, []) := Prod.ext hn hspare
    simp only [number?, value, hvalue, hfraction, hexponent, Fits, true_and]
    cases l.negative with
    | false => simp [Except.toOption, hle, eq_comm]
    | true =>
      by_cases hrange : amount l.whole = 0 ∨ amount l.whole > Nat.pow 2 63
      · rw [if_pos rfl, if_pos hrange, if_pos rfl]
        exact iff_of_false (by simp [Except.toOption]) fun h => by omega
      · rw [if_pos rfl, if_neg hrange, if_pos rfl, if_pos rfl]
        simp only [Except.toOption, Option.some.injEq, Number.int.injEq]
        exact ⟨fun h => ⟨by omega, h.symm⟩, fun h => h.2.symm⟩
  · refine iff_of_false (number?_ne_int h i) ?_
    rintro ⟨hfraction, hexponent, hfits, -⟩
    have hle : amount l.whole ≤ maxWord := by
      cases hn : l.negative with
      | false => simpa [Fits, hn] using hfits
      | true =>
        have := (show 0 < amount l.whole ∧ amount l.whole ≤ Nat.pow 2 63 by
          simpa [Fits, hn] using hfits).2
        exact Nat.le_trans this (by decide)
    exact h ⟨hfraction, hexponent, by rw [leading_of_le hle]⟩

/-- A literal is an integer below a bound when the number that it is, is one. -/
theorem natural?_eq_natOf? {bound : Nat} (hbound : bound ≤ UInt64.size) (l : Literal) :
    l.natural? bound = l.number?.bind fun n => Codec.natOf? bound (.number n) := by
  by_cases h : l.negative = false ∧ l.fraction = none ∧ l.exponent = none ∧ amount l.whole < bound
  · have hnumber : l.number? = some (.int (amount l.whole)) := by
      have hle : amount l.whole ≤ maxWord := Nat.le_pred_of_lt (Nat.lt_of_lt_of_le h.2.2.2 hbound)
      rw [number?_eq_int_iff, h.1]
      exact ⟨h.2.1, h.2.2.1, hle, rfl⟩
    rw [natural?, if_pos h, hnumber]
    simp [Codec.natOf?, h.2.2.2]
  · rw [natural?, if_neg h]
    match hnumber : l.number? with
    | none | some (.float _) => rfl
    | some (.int i) =>
      obtain ⟨hfraction, hexponent, hfits, hi⟩ := (number?_eq_int_iff l i).mp hnumber
      have hout : ¬(0 ≤ i ∧ i < bound) := by
        cases hn : l.negative with
        | false =>
          rw [hn] at hi
          have hi : i = amount l.whole := hi
          have hge : ¬amount l.whole < bound := fun hlt => h ⟨hn, hfraction, hexponent, hlt⟩
          omega
        | true =>
          rw [hn] at hi hfits
          have hi : i = -(amount l.whole : Int) := hi
          have := hfits.1
          omega
      exact (if_neg hout).symm

def decimal (n : Nat) : List Nat := (Nat.toDigits 10 n).map fun c => c.toNat - '0'.toNat

private theorem decimal_of_lt {n : Nat} (h : n < 10) : decimal n = [n] := by
  rw [decimal, Nat.toDigits_of_lt_base h, List.map_singleton, Nat.toNat_digitChar_of_lt_ten h]
  exact congrArg (fun m => [m]) (Nat.add_sub_cancel_left 48 n)

private theorem decimal_of_le {n : Nat} (h : 10 ≤ n) : decimal n = decimal (n / 10) ++ [n % 10] := by
  have hlast := decimal_of_lt (Nat.mod_lt n (show 0 < 10 by decide))
  rw [decimal, Nat.toDigits_of_lt_base (Nat.mod_lt n (by decide))] at hlast
  rw [decimal, Nat.toDigits_of_base_le (by decide) h, List.map_append, hlast, decimal]

private theorem decimal_induction {P : Nat → List Nat → Prop} (hlt : ∀ n < 10, P n [n])
    (hle : ∀ n, 10 ≤ n → P (n / 10) (decimal (n / 10)) → P n (decimal (n / 10) ++ [n % 10]))
    (n : Nat) : P n (decimal n) := by
  induction n using Nat.strongRecOn with
  | ind n ih =>
    by_cases h : n < 10
    · rw [decimal_of_lt h]
      exact hlt n h
    · rw [decimal_of_le (Nat.le_of_not_lt h)]
      exact hle n (Nat.le_of_not_lt h) (ih (n / 10) (by omega))

theorem numeral_decimal (n : Nat) : numeral (decimal n) = Nat.toDigits 10 n := by
  refine decimal_induction (P := fun n ds => numeral ds = Nat.toDigits 10 n) ?_ ?_ n
  · intro n h
    exact (Nat.toDigits_of_lt_base h).symm
  · intro n h ih
    rw [Nat.toDigits_of_base_le (by decide) h, ← ih]
    exact List.map_append

theorem amount_decimal (n : Nat) : amount (decimal n) = n := by
  refine decimal_induction (P := fun n ds => amount ds = n) ?_ ?_ n
  · intro n _
    exact Nat.zero_add n
  · intro n _ ih
    rw [amount, List.foldl_append]
    change amount (decimal (n / 10)) * 10 + n % 10 = n
    omega

theorem isNumeral_decimal (n : Nat) : IsNumeral (decimal n) := by
  refine decimal_induction (P := fun _ ds => IsNumeral ds) ?_ ?_ n
  · intro n h
    exact ⟨List.cons_ne_nil _ _, by simpa using h⟩
  · intro n _ ih
    refine ⟨by simp, fun d hd => ?_⟩
    rcases List.mem_append.mp hd with hd | hd
    · exact ih.2 d hd
    · rw [List.mem_singleton.mp hd]
      exact Nat.mod_lt n (by decide)

theorem eq_zero_of_decimal {n : Nat} {ds : List Nat} (h : decimal n = 0 :: ds) : ds = [] := by
  have hzero : ∀ ds, decimal n = 0 :: ds → n = 0 := by
    refine decimal_induction (P := fun n es => ∀ ds, es = 0 :: ds → n = 0) ?_ ?_ n
    · intro n _ ds h
      exact (List.cons.inj h).1
    · intro n hn ih ds h
      obtain ⟨d, es, hcons⟩ := List.exists_cons_of_ne_nil (isNumeral_decimal (n / 10)).1
      rw [hcons, List.cons_append] at h
      have := ih es (by rw [hcons, (List.cons.inj h).1])
      omega
  rw [hzero ds h, decimal_of_lt (by decide)] at h
  exact (List.cons.inj h).2.symm

def ofInt (i : Int) : Literal := ⟨decide (i < 0), decimal i.natAbs, none, none⟩

theorem spelt_ofInt (i : Int) : (ofInt i).Spelt (intText i) := by
  have hspelt : (ofInt i).Spelt _ := .parts (isNumeral_decimal i.natAbs)
    (fun _ h => eq_zero_of_decimal h) .absent .absent
  rw [numeral_decimal, List.append_nil, List.append_nil] at hspelt
  have htext : intText i = (if decide (i < 0) = true then ['-'] else []) ++
      Nat.toDigits 10 i.natAbs := by
    cases i with
    | ofNat n => rfl
    | negSucc n =>
      rw [decide_eq_true (Int.negSucc_lt_zero n)]
      rfl
  rw [htext]
  exact hspelt

def InRange (i : Int) : Prop := -(Nat.pow 2 63 : Int) ≤ i ∧ i < Nat.pow 2 64

theorem number?_ofInt {i : Int} (h : InRange i) : (ofInt i).number? = some (.int i) := by
  have hamount : amount (ofInt i).whole = i.natAbs := amount_decimal i.natAbs
  obtain ⟨hlow, hhigh⟩ := h
  rw [number?_eq_int_iff, hamount]
  refine ⟨rfl, rfl, ?_⟩
  by_cases hi : i < 0
  · have hnegative : (ofInt i).negative = true := decide_eq_true hi
    rw [hnegative]
    exact ⟨⟨by omega, by omega⟩, by rw [if_pos rfl]; omega⟩
  · have hnegative : (ofInt i).negative = false := decide_eq_false hi
    rw [hnegative]
    have hbound : maxWord = Nat.pow 2 64 - 1 := rfl
    have hfits : i.natAbs ≤ maxWord := by omega
    exact ⟨hfits, by rw [if_neg (by decide)]; omega⟩

theorem inRange_of_number? {l : Literal} {i : Int} (h : l.number? = some (.int i)) :
    InRange i := by
  obtain ⟨-, -, hfits, hi⟩ := (number?_eq_int_iff l i).mp h
  have hword : Nat.pow 2 64 = 2 ^ 64 := rfl
  unfold InRange
  cases hn : l.negative with
  | true =>
    rw [hn] at hfits hi
    have hi : i = -(amount l.whole : Int) := hi
    have := hfits.2
    omega
  | false =>
    rw [hn] at hfits hi
    have hi : i = (amount l.whole : Int) := hi
    have hfits : amount l.whole ≤ Nat.pow 2 64 - 1 := hfits
    omega

end CodeActions.Json.Literal
