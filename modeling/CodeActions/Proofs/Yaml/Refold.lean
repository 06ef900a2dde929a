import CodeActions.Yaml.Folding
/-!
# What folding leaves of a text

In a scalar in double quotes line and paragraph separators and the next-line character are breaks.
They are folded with the spaces around them, and a document marker after one of them ends the
document. `refold` says what is left of a text that is not escaped there; nothing changes if there
is no next-line character, and neither space nor marker next to another break
(`refold_eq_self_iff`).
-/
namespace CodeActions.Yaml

def isSeparator (c : Char) : Bool := c = '\u0085' || c = '\u2028' || c = '\u2029'

/-- What becomes of a character of a text without carriage returns when its breaks are unified. -/
def unified (c : Char) : Char := if c = '\u0085' then '\n' else c

/-- Whether a text starts with `n` times `q` in front of what `gap` accepts. -/
def startsRun (gap : List Char → Bool) (q : Char) : Nat → List Char → Bool
  | 0, cs => gap cs
  | n + 1, c :: cs => c = q && startsRun gap q n cs
  | _ + 1, [] => false

/-- Whether a text starts with a document marker in front of a space or a break. -/
def startsMarker (cs : List Char) : Bool :=
  let gap (cs : List Char) : Bool := cs.head?.any fun c => c = ' ' || isSeparator c
  startsRun gap '-' 3 cs || startsRun gap '.' 3 cs

/-- What is left of a text after a gap; nothing if a marker ends it. `isFresh` says that the text
starts a line. -/
def refold (gap : Gap) (isFresh : Bool) : List Char → Option (List Char)
  | [] => some gap.fold
  | c :: cs =>
      if c = ' ' then refold (gap.addBlank c) false cs
      else if isSeparator c then refold (gap.addBreak (unified c)) true cs
      else if isFresh && startsMarker (c :: cs) then none
      else (gap.fold ++ c :: ·) <$> refold {} false cs

/-- Whether no line or paragraph separator stands next to a space, or in front of a marker. -/
def Kept : List Char → Prop
  | [] => True
  | c :: cs =>
      (isSeparator c → cs.head? ≠ some ' ' ∧ startsMarker cs = false) ∧
        (c = ' ' → ∀ d ∈ cs.head?, isSeparator d = false) ∧ Kept cs

theorem isSeparator_iff {c : Char} :
    isSeparator c = true ↔ c = '\u0085' ∨ c = '\u2028' ∨ c = '\u2029' := by
  simp [isSeparator, or_assoc]

theorem kept_iff {cs : List Char} :
    Kept cs ↔ ∀ before c after, cs = before ++ c :: after → isSeparator c = true →
      before.getLast? ≠ some ' ' ∧ after.head? ≠ some ' ' ∧ startsMarker after = false := by
  induction cs with
  | nil => simp [Kept]
  | cons d cs ih =>
    rw [Kept, ih]
    constructor
    · rintro ⟨hseparator, hspace, hrest⟩ before c after heq hc
      cases before with
      | nil =>
        obtain ⟨rfl, rfl⟩ := List.cons.inj heq
        exact ⟨by simp, hseparator hc⟩
      | cons e before =>
        obtain ⟨rfl, rfl⟩ := List.cons.inj heq
        obtain ⟨hlast, hafter⟩ := hrest before c after rfl hc
        refine ⟨fun hend => ?_, hafter⟩
        cases before with
        | nil =>
          rw [hspace (Option.some_inj.mp hend) c rfl] at hc
          cases hc
        | cons e before => exact hlast (by simpa using hend)
    · intro h
      refine ⟨fun hd => (h [] d cs rfl hd).2, ?_, ?_⟩
      · rintro rfl c hc
        obtain ⟨after, rfl⟩ : ∃ after, cs = c :: after := List.head?_eq_some_iff.mp hc
        exact Bool.eq_false_iff.mpr fun hc => (h [' '] c after rfl hc).1 rfl
      · intro before c after heq hc
        obtain ⟨hlast, hafter⟩ := h (d :: before) c after (congrArg (d :: ·) heq) hc
        refine ⟨fun hspace => hlast ?_, hafter⟩
        rw [List.getLast?_cons, hspace]
        rfl

namespace Gap

/-- Whether a gap has no line feed and nothing that is left out of it. -/
structure IsTidy (g : Gap) : Prop where
  unescaped : g.escaped = false
  noLine : '\n' ∉ g.breaks

def length (g : Gap) : Nat := g.blanks.length + g.breaks.length

private theorem isTidy_empty : IsTidy {} := ⟨rfl, List.not_mem_nil⟩

variable {g : Gap}

theorem IsTidy.addBlank (h : g.IsTidy) (c : Char) : (g.addBlank c).IsTidy := by
  unfold Gap.addBlank
  split
  case isTrue => exact h
  case isFalse => exact ⟨h.unescaped, h.noLine⟩

theorem IsTidy.addBreak (h : g.IsTidy) {c : Char} (hc : c ≠ '\n') : (g.addBreak c).IsTidy :=
  ⟨h.unescaped, fun hmem => (List.mem_append.mp hmem).elim h.noLine fun hmem =>
    hc (List.mem_singleton.mp hmem).symm⟩

private theorem length_addBlank (g : Gap) (c : Char) : (g.addBlank c).length ≤ g.length + 1 := by
  unfold Gap.addBlank length
  split
  case isTrue => omega
  case isFalse => simp; omega

private theorem length_addBreak (g : Gap) (c : Char) : (g.addBreak c).length = g.breaks.length + 1 := by
  simp [Gap.addBreak, length]

private theorem IsTidy.fold_of_breaks (h : g.IsTidy) (hbreaks : g.breaks ≠ []) : g.fold = g.breaks := by
  obtain ⟨c, cs, hcs⟩ := List.exists_cons_of_ne_nil hbreaks
  have hc : c ≠ '\n' := fun heq => h.noLine (hcs ▸ heq ▸ List.mem_cons_self)
  rw [fold, h.unescaped, hcs, if_neg Bool.false_ne_true]
  split
  case h_1 heq => cases heq
  case h_2 heq => exact absurd (List.cons.inj heq).1 hc
  case h_3 heq => exact absurd (List.cons.inj heq).1 hc
  case h_4 => rfl

private theorem IsTidy.fold_of_blanks (h : g.IsTidy) (hbreaks : g.breaks = []) : g.fold = g.blanks := by
  rw [fold, h.unescaped, hbreaks, if_neg Bool.false_ne_true]

private theorem IsTidy.fold_eq (h : g.IsTidy) (hone : g.blanks = [] ∨ g.breaks = []) :
    g.fold = g.blanks ++ g.breaks := by
  by_cases hbreaks : g.breaks = []
  · rw [h.fold_of_blanks hbreaks, hbreaks, List.append_nil]
  · rw [h.fold_of_breaks hbreaks, hone.resolve_right hbreaks, List.nil_append]

private theorem IsTidy.length_fold (h : g.IsTidy) : g.fold.length ≤ g.length := by
  by_cases hbreaks : g.breaks = []
  · rw [h.fold_of_blanks hbreaks]
    exact Nat.le_add_right _ _
  · rw [h.fold_of_breaks hbreaks]
    exact Nat.le_add_left _ _

end Gap

private theorem unified_ne_line {c : Char} (h : isSeparator c = true) (hc : c ≠ '\u0085') :
    unified c ≠ '\n' := by
  rw [unified, if_neg hc]
  rintro rfl
  cases h

private theorem length_refold {cs : List Char} (hcs : '\u0085' ∉ cs) {gap : Gap} (hgap : gap.IsTidy)
    {isFresh : Bool} {out : List Char} (h : refold gap isFresh cs = some out) :
    out.length ≤ gap.length + cs.length := by
  induction cs generalizing gap isFresh out with
  | nil =>
    cases h
    exact hgap.length_fold
  | cons c cs ih =>
    obtain ⟨hc, hcs⟩ := not_or.mp (mt List.mem_cons.mpr hcs)
    rw [refold] at h
    rw [List.length_cons]
    split at h
    case isTrue =>
      have hlength := ih hcs (hgap.addBlank c) h
      have hblank := gap.length_addBlank c
      omega
    split at h
    case isTrue hseparator =>
      have hlength := ih hcs (hgap.addBreak (unified_ne_line hseparator (Ne.symm hc))) h
      rw [Gap.length_addBreak] at hlength
      unfold Gap.length
      omega
    split at h
    case isTrue => cases h
    case isFalse =>
      obtain ⟨rest, hrest, rfl⟩ := Option.map_eq_some_iff.mp h
      have hlength := ih hcs Gap.isTidy_empty hrest
      have hfold := hgap.length_fold
      have hempty : Gap.length {} = 0 := rfl
      rw [List.length_append, List.length_cons]
      omega

def KeptAfter (gap : Gap) (cs : List Char) : Prop :=
  (gap.breaks ≠ [] → cs.head? ≠ some ' ' ∧ startsMarker cs = false) ∧
    (gap.blanks ≠ [] → ∀ d ∈ cs.head?, isSeparator d = false) ∧ Kept cs

private theorem not_marker_of_gap {c : Char} (h : c = ' ' ∨ isSeparator c = true) (cs : List Char) :
    startsMarker (c :: cs) = false := by
  have hhyphen : c ≠ '-' := by
    rintro rfl
    exact h.elim (by decide) (by decide)
  have hdot : c ≠ '.' := by
    rintro rfl
    exact h.elim (by decide) (by decide)
  simp [startsMarker, startsRun, hhyphen, hdot]

/-- A gap of blanks only or of breaks only stays if what follows does not add to it the other kind,
which would take away the blanks. -/
private theorem refold_eq_iff {cs : List Char} (hnext : '\u0085' ∉ cs) {gap : Gap} (hgap : gap.IsTidy)
    (hone : gap.blanks = [] ∨ gap.breaks = []) :
    refold gap (!gap.breaks.isEmpty) cs = some (gap.blanks ++ gap.breaks ++ cs) ↔
      KeptAfter gap cs := by
  induction cs generalizing gap with
  | nil =>
    refine iff_of_true ?_ ⟨fun _ => ⟨by simp, rfl⟩, fun _ => by simp, trivial⟩
    rw [refold, List.append_nil, hgap.fold_eq hone]
  | cons c cs ih =>
    obtain ⟨hc, hcs⟩ := not_or.mp (mt List.mem_cons.mpr hnext)
    obtain ⟨blanks, breaks, escaped⟩ := gap
    obtain rfl : escaped = false := hgap.unescaped
    rw [refold]
    by_cases hspace : c = ' '
    · subst hspace
      rw [if_pos rfl]
      by_cases hbreaks : breaks = []
      · subst hbreaks
        have hrest := ih hcs (hgap.addBlank ' ') (.inr rfl)
        simpa [Gap.addBlank, Gap.isBroken, KeptAfter, Kept, isSeparator] using hrest
      · -- The space is lost.
        obtain rfl : blanks = [] := hone.resolve_right hbreaks
        refine iff_of_false (fun h => ?_) fun h => (h.1 hbreaks).1 rfl
        have hlength := length_refold hcs (hgap.addBlank ' ') h
        have hsame : Gap.addBlank ⟨[], breaks, false⟩ ' ' = ⟨[], breaks, false⟩ :=
          if_pos (by simpa [Gap.isBroken] using hbreaks)
        rw [hsame] at hlength
        simp only [Gap.length, List.length_append, List.length_nil, List.length_cons] at hlength
        omega
    rw [if_neg hspace]
    by_cases hseparator : isSeparator c = true
    · have hsame : unified c = c := if_neg (Ne.symm hc)
      have htidy := hgap.addBreak (hsame ▸ unified_ne_line hseparator (Ne.symm hc))
      rw [if_pos hseparator, hsame]
      by_cases hblanks : blanks = []
      · subst hblanks
        have hrest := ih hcs htidy (.inl rfl)
        have hmarker := not_marker_of_gap (.inr hseparator) cs
        have hbroken : (!(breaks ++ [c]).isEmpty) = true := by simp
        simp only [Gap.addBreak, hbroken] at hrest
        simpa [Gap.addBreak, KeptAfter, Kept, hseparator, hspace, hmarker] using hrest
      · -- The spaces before the break are lost.
        obtain rfl : breaks = [] := hone.resolve_left hblanks
        refine iff_of_false (fun h => ?_) fun h => ?_
        · have hlength := length_refold hcs htidy h
          have hpos := List.length_pos_iff.mpr hblanks
          rw [Gap.length_addBreak] at hlength
          simp at hlength
          omega
        · have hnone := h.2.1 hblanks c rfl
          rw [hseparator] at hnone
          cases hnone
    · rw [if_neg hseparator]
      have hempty := ih hcs Gap.isTidy_empty (.inl rfl)
      have hkept : KeptAfter {} cs ↔ Kept cs := by simp [KeptAfter]
      by_cases hmarker : breaks ≠ [] ∧ startsMarker (c :: cs) = true
      · have hfresh : (!breaks.isEmpty && startsMarker (c :: cs)) = true := by simpa using hmarker
        rw [if_pos hfresh]
        refine iff_of_false (by simp) fun h => ?_
        have hnone := (h.1 hmarker.1).2
        rw [hmarker.2] at hnone
        cases hnone
      · have hfresh : ¬(!breaks.isEmpty && startsMarker (c :: cs)) = true := by simpa using hmarker
        have hafter : KeptAfter ⟨blanks, breaks, false⟩ (c :: cs) ↔ KeptAfter {} cs := by
          have hstart : breaks ≠ [] → startsMarker (c :: cs) = false := by simpa using hmarker
          simpa [KeptAfter, Kept, hseparator, hspace] using fun _ => hstart
        rw [if_neg hfresh, hgap.fold_eq hone, hafter, ← hempty]
        change _ <$> refold {} false cs = _ ↔ refold {} false cs = some cs
        cases refold {} false cs <;> simp

private theorem next_not_mem_fold {gap : Gap} (hblanks : '\u0085' ∉ gap.blanks)
    (hbreaks : '\u0085' ∉ gap.breaks) : '\u0085' ∉ gap.fold := by
  rw [Gap.fold]
  split
  · exact hbreaks
  · split
    case h_1 => exact hblanks
    case h_2 => decide
    case h_3 heq => exact fun h => hbreaks (heq ▸ List.mem_cons_of_mem _ h)
    case h_4 => exact hbreaks

private theorem next_not_mem_refold {cs : List Char} {gap : Gap} (hblanks : '\u0085' ∉ gap.blanks)
    (hbreaks : '\u0085' ∉ gap.breaks) {isFresh : Bool} {out : List Char}
    (h : refold gap isFresh cs = some out) : '\u0085' ∉ out := by
  induction cs generalizing gap isFresh out with
  | nil =>
    cases h
    exact next_not_mem_fold hblanks hbreaks
  | cons c cs ih =>
    rw [refold] at h
    split at h
    case isTrue hspace =>
      refine ih ?_ ?_ h
      · rw [Gap.addBlank]
        split
        · exact hblanks
        · simp [hblanks, hspace]
      · rw [Gap.addBlank]
        split <;> exact hbreaks
    split at h
    case isTrue =>
      refine ih List.not_mem_nil ?_ h
      have hunified : '\u0085' ≠ unified c := by
        rw [unified]
        split
        case isTrue => decide
        case isFalse hc => exact Ne.symm hc
      simp [Gap.addBreak, hbreaks, hunified]
    case isFalse hseparator =>
      split at h
      case isTrue => cases h
      case isFalse =>
        obtain ⟨rest, hrest, rfl⟩ := Option.map_eq_some_iff.mp h
        have hc : '\u0085' ≠ c := by
          rintro rfl
          exact hseparator rfl
        have htail := ih List.not_mem_nil List.not_mem_nil hrest
        simp [next_not_mem_fold hblanks hbreaks, hc, htail]

/-- A text is left as it is if it has no next-line character, and no space and no marker next to
another break. -/
theorem refold_eq_self_iff {cs : List Char} :
    refold {} false cs = some cs ↔ '\u0085' ∉ cs ∧ Kept cs := by
  have hkept (h : '\u0085' ∉ cs) : refold {} false cs = some cs ↔ Kept cs := by
    have hiff := refold_eq_iff h Gap.isTidy_empty (.inl rfl)
    simpa [KeptAfter] using hiff
  constructor
  · intro h
    have hnext := next_not_mem_refold List.not_mem_nil List.not_mem_nil h
    exact ⟨hnext, (hkept hnext).mp h⟩
  · exact fun h => (hkept h.1).mpr h.2

end CodeActions.Yaml
