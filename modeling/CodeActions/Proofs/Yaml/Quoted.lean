import CodeActions.Proofs.Yaml.Refold
import CodeActions.Text.Quoted
/-!
# JSON strings in double quotes

A JSON string is also a scalar in double quotes: every escape of the one is an escape of the other.
What the scanner reads of it is what folding leaves of the text (`folds`).
-/
namespace CodeActions.Yaml
open CodeActions.Text

theorem unifyBreaks_eq_map {cs : List Char} (h : '\r' ∉ cs) : unifyBreaks cs = cs.map unified := by
  induction cs with
  | nil => rfl
  | cons c cs ih =>
    obtain ⟨hc, hcs⟩ := not_or.mp (mt List.mem_cons.mpr h)
    have hhead : (if c = '\r' ∨ c = '\u0085' then '\n' else c) = unified c := by
      simp [unified, Ne.symm hc]
    rw [unifyBreaks, ih hcs, hhead, List.map_cons]
    exact fun r heq => absurd heq.symm hc

/-- The places of a string's characters as they are written, up to its closing quote and on. -/
def written (cs rest : List Char) : List Char :=
  (cs.flatMap jsonEscape).map unified ++ '"' :: rest

private theorem written_nil (rest : List Char) : written [] rest = '"' :: rest := rfl

private theorem written_cons (c : Char) (cs rest : List Char) :
    written (c :: cs) rest = (jsonEscape c).map unified ++ written cs rest := by
  rw [written, List.flatMap_cons, List.map_append, List.append_assoc, written]

theorem written_append (cs rest : List Char) : written cs [] ++ rest = written cs rest := by
  simp [written]

private theorem escape?_code {a b c d : Char} {n : Nat}
    (h : [a, b, c, d].foldlM (fun n c => (n * 16 + ·) <$> hexDigit? c) 0 = some n)
    (hn : n.isValidChar) (m : Mark) (rest : List Char) :
    escape? (placed m (['u', a, b, c, d] ++ rest)) = some (Char.ofNat n, 5) := by
  have hnumber (m : Mark) : hexNumber? 4 (placed m (a :: b :: c :: d :: rest)) = some n := by
    have hlength : ¬(placed m (a :: b :: c :: d :: rest)).length < 4 := by simp [placed]
    rw [hexNumber?, if_neg hlength, ← h]
    rfl
  simp only [List.cons_append, List.nil_append, placed, escape?]
  change (hexNumber? 4 (placed (m.after 'u') (a :: b :: c :: d :: rest))).bind _ = _
  rw [hnumber]
  simp [hn]

private theorem hex_digit : ∀ n < 0x10,
    ['0', '0', '0', Nat.digitChar n].foldlM (fun n c => (n * 16 + ·) <$> hexDigit? c) 0 = some n ∧
      0x20 ≤ (Nat.digitChar n).toNat ∧ (Nat.digitChar n).toNat < 0x7F := by decide

private theorem hex_teen : ∀ n < 0x20, 0x10 ≤ n →
    ['0', '0', '1', Nat.digitChar (n - 0x10)].foldlM (fun n c => (n * 16 + ·) <$> hexDigit? c) 0 =
      some n := by decide

structure Escapes (c : Char) (e : List Char) : Prop where
  visible : ∀ x ∈ e, 0x20 ≤ x.toNat ∧ x.toNat < 0x7F
  reads : ∀ (m : Mark) (rest : List Char), escape? (placed m (e ++ rest)) = some (c, e.length)

private theorem escapes_code {c : Char} {d : Char} {low : Char}
    (h : ['0', '0', low, d].foldlM (fun n c => (n * 16 + ·) <$> hexDigit? c) 0 = some c.toNat)
    (hlow : 0x20 ≤ low.toNat ∧ low.toNat < 0x7F) (hd : 0x20 ≤ d.toNat ∧ d.toNat < 0x7F) :
    Escapes c ['u', '0', '0', low, d] where
  visible x hx := by
    simp only [List.mem_cons, List.not_mem_nil, or_false] at hx
    rcases hx with rfl | rfl | rfl | rfl | rfl
    · decide
    · decide
    · decide
    · exact hlow
    · exact hd
  reads m rest := by
    rw [escape?_code h c.valid, Char.ofNat_toNat]
    rfl

/-- A character of a string is written as it is, unless an escape stands for it. -/
theorem jsonEscape_cases (c : Char) :
    (jsonEscape c = [c] ∧ 0x20 ≤ c.toNat ∧ c ≠ '"' ∧ c ≠ '\\') ∨
      ∃ e, jsonEscape c = '\\' :: e ∧ Escapes c e ∧ (c.toNat < 0x20 ∨ c = '"' ∨ c = '\\') := by
  by_cases hshort : c ∈ ['"', '\\', '\x08', '\t', '\n', '\x0c', '\r']
  · simp only [List.mem_cons, List.not_mem_nil, or_false] at hshort
    rcases hshort with rfl | rfl | rfl | rfl | rfl | rfl | rfl <;>
      exact .inr ⟨_, rfl, ⟨List.forall_mem_singleton.mpr (by decide), fun m rest => rfl⟩, by decide⟩
  simp only [List.mem_cons, List.not_mem_nil, or_false, not_or] at hshort
  obtain ⟨hquote, hslash, hback, htab, hline, hfeed, hreturn⟩ := hshort
  rw [jsonEscape, if_neg hquote, if_neg hslash, if_neg hback, if_neg htab, if_neg hline,
    if_neg hfeed, if_neg hreturn]
  by_cases hdigit : c.toNat < 0x10
  · obtain ⟨h, hvisible⟩ := hex_digit c.toNat hdigit
    rw [if_pos hdigit]
    exact .inr ⟨_, rfl, escapes_code h (by decide) hvisible, .inl (by omega)⟩
  by_cases hteen : c.toNat < 0x20
  · obtain ⟨-, hvisible⟩ := hex_digit (c.toNat - 0x10) (by omega)
    rw [if_neg hdigit, if_pos hteen]
    exact .inr ⟨_, rfl, escapes_code (hex_teen _ hteen (by omega)) (by decide) hvisible, .inl hteen⟩
  rw [if_neg hdigit, if_neg hteen]
  exact .inl ⟨rfl, by omega, hquote, hslash⟩

theorem unified_of_visible {c : Char} (h : c.toNat < 0x7F) : unified c = c := by
  refine if_neg ?_
  rintro rfl
  exact absurd h (by decide)

theorem isBreak_of_visible {c : Char} (h : 0x20 ≤ c.toNat ∧ c.toNat < 0x7F) :
    isBreak c = false := by
  have hne {d : Char} (hd : d.toNat < 0x20 ∨ 0x7F ≤ d.toNat) : c ≠ d := by
    rintro rfl
    omega
  simp [isBreak, hne (d := '\n') (by decide), hne (d := '\u2028') (by decide),
    hne (d := '\u2029') (by decide)]

theorem isBreak_unified {c : Char} (hlow : 0x20 ≤ c.toNat) :
    isBreak (unified c) = isSeparator c := by
  have hline : c ≠ '\n' := by
    rintro rfl
    exact absurd hlow (by decide)
  by_cases hnext : c = '\u0085'
  · subst hnext
    rfl
  · simp [unified, isBreak, isSeparator, hnext, hline]

private theorem column_after {m : Mark} {c : Char} (h : isBreak c = false) :
    (m.after c).column = m.column + 1 := by
  simp [Mark.after, h]

theorem endMark_append (m : Mark) (cs ds : List Char) :
    endMark m (cs ++ ds) = endMark (endMark m cs) ds := List.foldl_append

theorem endMark_cons (m : Mark) (c : Char) (cs : List Char) :
    endMark m (c :: cs) = endMark (m.after c) cs := rfl

theorem endMark_of_solid {cs : List Char} (h : ∀ c ∈ cs, isBreak c = false) (m : Mark) :
    endMark m cs = ⟨m.line, m.column + cs.length⟩ := by
  induction cs generalizing m with
  | nil => rfl
  | cons c cs ih =>
    obtain ⟨hc, hcs⟩ := List.forall_mem_cons.mp h
    rw [endMark_cons, ih hcs, Mark.after, hc, List.length_cons]
    simp only [Bool.false_eq_true, if_false, Mark.mk.injEq, true_and]
    omega

private theorem scanDouble_skip (e cs : List Char) (m : Mark) (gap : Gap) :
    scanDouble gap e.length (placed m (e ++ cs)) = scanDouble gap 0 (placed (endMark m e) cs) := by
  induction e generalizing m with
  | nil => rfl
  | cons c e ih => exact ih (m.after c)

theorem atMarker_placed (m : Mark) (cs : List Char) :
    atMarker (placed m cs) =
      (decide (m.column = 0) && (startsRun (fun cs => atGap (placed m cs)) '-' 3 cs ||
        startsRun (fun cs => atGap (placed m cs)) '.' 3 cs)) := by
  match cs with
  | [] | [_] | [_, _] => simp [placed, atMarker, startsRun]
  | a :: b :: c :: cs =>
    have hgap (m' : Mark) : atGap (placed m' cs) = atGap (placed m cs) := by cases cs <;> rfl
    simp only [placed, atMarker, startsRun, hgap]
    cases atGap (placed m cs) <;> simp [Bool.and_assoc]

private theorem solid_of_escaped {c : Char} (h : c.toNat < 0x20 ∨ c = '"' ∨ c = '\\') :
    c ≠ ' ' ∧ isSeparator c = false ∧ ∀ cs, startsMarker (c :: cs) = false := by
  have hne {d : Char} (hlow : 0x20 ≤ d.toNat) (hquote : d ≠ '"') (hslash : d ≠ '\\') : c ≠ d := by
    rintro rfl
    exact h.elim (Nat.not_lt.mpr hlow) fun h => h.elim hquote hslash
  have hspace : c ≠ ' ' := hne (by decide) (by decide) (by decide)
  have hnext : c ≠ '\u0085' := hne (by decide) (by decide) (by decide)
  have hline : c ≠ '\u2028' := hne (by decide) (by decide) (by decide)
  have hparagraph : c ≠ '\u2029' := hne (by decide) (by decide) (by decide)
  have hhyphen : c ≠ '-' := hne (by decide) (by decide) (by decide)
  have hdot : c ≠ '.' := hne (by decide) (by decide) (by decide)
  refine ⟨hspace, ?_, fun cs => ?_⟩
  · simp [isSeparator, hnext, hline, hparagraph]
  · simp [startsMarker, startsRun, hhyphen, hdot]

private theorem isGap_unified {c : Char} (hlow : 0x20 ≤ c.toNat) :
    (isBlank (unified c) || isBreak (unified c)) = (decide (c = ' ') || isSeparator c) := by
  have htab : c ≠ '\t' := by
    rintro rfl
    exact absurd hlow (by decide)
  rw [isBreak_unified hlow]
  by_cases hnext : c = '\u0085'
  · subst hnext
    rfl
  · simp [unified, isBlank, hnext, htab]

private theorem isBlank_of_separator {c : Char} (h : isSeparator c = true) :
    isBlank (unified c) = false := by
  simp only [isSeparator, Bool.or_eq_true, decide_eq_true_eq] at h
  rcases h with (rfl | rfl) | rfl <;> rfl

private theorem exists_head_jsonEscape (c : Char) :
    ∃ x xs, (jsonEscape c).map unified = x :: xs ∧
      (isBlank x || isBreak x) = (decide (c = ' ') || isSeparator c) ∧
      ∀ q, jsonEscape q = [q] → 0x20 ≤ q.toNat ∧ q.toNat < 0x7F → q ≠ '\\' → (x = q ↔ c = q) := by
  rcases jsonEscape_cases c with ⟨hc, hlow, -, -⟩ | ⟨e, hc, he, hescaped⟩
  · refine ⟨unified c, [], by rw [hc]; rfl, isGap_unified hlow, fun q _ hvisible _ => ?_⟩
    by_cases hnext : c = '\u0085'
    · subst hnext
      have hne {d : Char} (hd : d.toNat < 0x20 ∨ 0x7F ≤ d.toNat) : d ≠ q := by
        rintro rfl
        omega
      exact iff_of_false (hne (by decide)) (hne (by decide))
    · rw [unified, if_neg hnext]
  · refine ⟨'\\', e.map unified, by rw [hc]; rfl, ?_, fun q hq _ hslash => ?_⟩
    · obtain ⟨hspace, hseparator, -⟩ := solid_of_escaped hescaped
      rw [hseparator, decide_eq_false hspace]
      rfl
    · refine iff_of_false hslash.symm ?_
      rintro rfl
      rw [hq] at hc
      exact hslash (List.cons.inj hc).1

private theorem startsRun_written {q : Char} (hq : jsonEscape q = [q])
    (hvisible : 0x20 ≤ q.toNat ∧ q.toNat < 0x7F) (hslash : q ≠ '\\') (hquote : q ≠ '"') (m : Mark)
    (n : Nat) (cs rest : List Char) :
    startsRun (fun cs => atGap (placed m cs)) q n (written cs rest) =
      startsRun (fun cs => cs.head?.any fun c => c = ' ' || isSeparator c) q n cs := by
  induction n generalizing cs with
  | zero =>
    cases cs with
    | nil => rfl
    | cons c cs =>
      obtain ⟨x, xs, hx, hgap, -⟩ := exists_head_jsonEscape c
      rw [written_cons, hx]
      exact hgap
  | succ n ih =>
    cases cs with
    | nil => simp [written_nil, startsRun, hquote.symm]
    | cons c cs =>
      rw [written_cons]
      by_cases hcq : c = q
      · subst hcq
        simp [hq, unified_of_visible hvisible.2, startsRun, ih]
      · obtain ⟨x, xs, hx, -, hhead⟩ := exists_head_jsonEscape c
        have hxq : x ≠ q := fun heq => hcq ((hhead q hq hvisible hslash).mp heq)
        simp [hx, startsRun, hcq, hxq]

private theorem atMarker_written (m : Mark) (cs rest : List Char) :
    atMarker (placed m (written cs rest)) = (decide (m.column = 0) && startsMarker cs) := by
  rw [atMarker_placed, startsRun_written rfl (by decide) (by decide) (by decide),
    startsRun_written rfl (by decide) (by decide) (by decide)]
  rfl

private theorem scanDouble_escape {gap : Gap} {m : Mark} {r : List Spot} {c : Char} {width : Nat}
    (hmarker : atMarker (⟨'\\', m⟩ :: r) = false)
    (hnext : r.head?.map (fun s => isBreak s.char) ≠ some true)
    (hescape : escape? r = some (c, width)) :
    scanDouble gap 0 (⟨'\\', m⟩ :: r) =
      (·.after (gap.fold ++ [c])) <$> scanDouble {} width r := by
  have hblank : isBlank '\\' = false := rfl
  have hbreak : isBreak '\\' = false := rfl
  simp [scanDouble, hblank, hbreak, hmarker, hnext, hescape]

/-- Whether a JSON string is read as what folding leaves of it, at a place and after a gap. -/
def Folds (cs rest : List Char) (m : Mark) (gap : Gap) : Prop :=
  scanDouble gap 0 (placed m (written cs rest)) =
    (refold gap (decide (m.column = 0)) cs).map fun text =>
      ⟨text, placed (endMark m (written cs [])) rest⟩

section folds
variable {cs rest : List Char} {m : Mark} {gap : Gap} {c : Char}

private theorem folds_nil : Folds [] rest m gap := by
  have hmarker : atMarker (placed m ('"' :: rest)) = false := by
    have hnone := atMarker_written m [] rest
    rw [written_nil] at hnone
    rw [hnone]
    exact Bool.and_false _
  rw [Folds, written_nil, placed, scanDouble, ← placed, hmarker]
  rfl

private theorem folds_space (h : Folds cs rest (m.after ' ') (gap.addBlank ' ')) :
    Folds (' ' :: cs) rest m gap := by
  have hcolumn : (m.after ' ').column ≠ 0 := Nat.succ_ne_zero _
  rw [Folds, decide_eq_false hcolumn] at h
  exact h

private theorem folds_separator (hc : jsonEscape c = [c]) (hlow : 0x20 ≤ c.toNat)
    (hseparator : isSeparator c = true)
    (h : Folds cs rest (m.after (unified c)) (gap.addBreak (unified c))) :
    Folds (c :: cs) rest m gap := by
  have hblank : isBlank (unified c) = false := isBlank_of_separator hseparator
  have hbreak : isBreak (unified c) = true := (isBreak_unified hlow).trans hseparator
  have hspace : c ≠ ' ' := by
    rintro rfl
    cases hseparator
  have hcolumn : (m.after (unified c)).column = 0 := by rw [Mark.after, if_pos hbreak]
  rw [Folds, decide_eq_true hcolumn] at h
  rw [Folds, written_cons, written_cons, hc, List.map_singleton, List.singleton_append,
    List.singleton_append, placed, endMark_cons, refold, scanDouble,
    if_neg (Bool.eq_false_iff.mp hblank), if_pos hbreak, if_neg hspace, if_pos hseparator]
  exact h

private theorem folds_solid (hc : jsonEscape c = [c]) (hlow : 0x20 ≤ c.toNat) (hquote : c ≠ '"')
    (hslash : c ≠ '\\') (hspace : c ≠ ' ') (hseparator : ¬isSeparator c = true)
    (h : Folds cs rest (m.after c) {}) : Folds (c :: cs) rest m gap := by
  have hmarker := atMarker_written m (c :: cs) rest
  have hsolid := isGap_unified hlow
  have hsame : unified c = c := by
    refine if_neg ?_
    rintro rfl
    exact hseparator rfl
  rw [hsame, decide_eq_false hspace, Bool.eq_false_iff.mpr hseparator, Bool.or_false,
    Bool.or_eq_false_iff] at hsolid
  obtain ⟨hblank, hbreak⟩ := hsolid
  have hcolumn : (m.after c).column ≠ 0 := by
    rw [column_after hbreak]
    exact Nat.succ_ne_zero _
  rw [Folds, decide_eq_false hcolumn] at h
  rw [written_cons, hc, List.map_singleton, List.singleton_append, hsame, placed] at hmarker
  rw [Folds, written_cons, written_cons, hc, List.map_singleton, List.singleton_append,
    List.singleton_append, hsame, placed, endMark_cons, refold, scanDouble,
    if_neg (Bool.eq_false_iff.mp hblank), if_neg (Bool.eq_false_iff.mp hbreak), if_neg hspace,
    if_neg hseparator, hmarker]
  split
  case isTrue => rfl
  case isFalse =>
    rw [h]
    cases refold {} false cs with
    | none => rfl
    | some text => simp [Scanned.after]

private theorem folds_escaped {e : List Char} (hc : jsonEscape c = '\\' :: e) (he : Escapes c e)
    (hescaped : c.toNat < 0x20 ∨ c = '"' ∨ c = '\\')
    (h : Folds cs rest (endMark (m.after '\\') e) {}) : Folds (c :: cs) rest m gap := by
  obtain ⟨hspace, hseparator, hnone⟩ := solid_of_escaped hescaped
  have hmarker := atMarker_written m (c :: cs) rest
  have hvisible : (jsonEscape c).map unified = '\\' :: e := by
    have hsame : ∀ x ∈ e, unified x = x := fun x hx => unified_of_visible (he.visible x hx).2
    rw [hc, List.map_cons, List.map_congr_left hsame, List.map_id']
    rfl
  have hcolumn : (endMark (m.after '\\') e).column ≠ 0 := by
    rw [endMark_of_solid fun x hx => isBreak_of_visible (he.visible x hx)]
    exact Nat.ne_of_gt (Nat.add_pos_left (Nat.succ_pos _) _)
  rw [Folds, decide_eq_false hcolumn, ← scanDouble_skip] at h
  rw [written_cons, hvisible, hnone, Bool.and_false] at hmarker
  rw [Folds, written_cons, written_cons, hvisible, endMark_append, refold, if_neg hspace,
    if_neg (Bool.eq_false_iff.mp hseparator), hnone, Bool.and_false, endMark_cons]
  cases e with
  | nil => cases he.reads m []
  | cons d e =>
    have hbreak : isBreak d = false := isBreak_of_visible (he.visible d List.mem_cons_self)
    have hnext : (placed (m.after '\\') (d :: e ++ written cs rest)).head?.map
        (fun s => isBreak s.char) ≠ some true := by
      simp [placed, hbreak]
    rw [List.cons_append, placed] at hmarker ⊢
    rw [scanDouble_escape hmarker hnext (he.reads _ _), h, if_neg Bool.false_ne_true]
    cases refold {} false cs with
    | none => rfl
    | some text => simp [Scanned.after]

end folds

theorem folds (cs rest : List Char) (m : Mark) (gap : Gap) : Folds cs rest m gap := by
  induction cs generalizing m gap with
  | nil => exact folds_nil
  | cons c cs ih =>
    rcases jsonEscape_cases c with ⟨hc, hlow, hquote, hslash⟩ | ⟨e, hc, he, hescaped⟩
    · by_cases hspace : c = ' '
      · subst hspace
        exact folds_space (ih _ _)
      · by_cases hseparator : isSeparator c = true
        · exact folds_separator hc hlow hseparator (ih _ _)
        · exact folds_solid hc hlow hquote hslash hspace hseparator (ih _ _)
    · exact folds_escaped hc he hescaped (ih _ _)

end CodeActions.Yaml
