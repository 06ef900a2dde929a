import CodeActions.Proofs.Yaml.Scanning
/-!
# Tokens of JSON

What a scanner makes of each token of a JSON text: which token starts with a character, and what
scanning it does to the state.
-/
namespace CodeActions.Yaml.Scanner
open CodeActions.Text

private theorem not_atMarker {c : Char} (hhyphen : c ≠ '-') (hdot : c ≠ '.') (m : Mark) (cs : List Char) :
    atMarker (⟨c, m⟩ :: placed (m.after c) cs) = false :=
  (atMarker_placed m (c :: cs)).trans (by simp [startsRun, hhyphen, hdot])

namespace At
variable {s : Scanner} {depth : Nat} {allowed : Bool} {signs : List Sign} {m : Mark}
  {cs : List Char} {c : Char}

private theorem drop_rest (h : s.At depth allowed signs m (c :: cs)) :
    s.rest.drop 1 = placed (m.after c) cs := by
  rw [h.rest]
  rfl

theorem openFlow (h : s.At depth allowed signs m (c :: cs)) {sign : Sign}
    (hsign : sign ≠ .streamEnd) :
    ∃ t, s.openFlow sign = some t ∧ t.At (depth + 1) true (signs ++ [sign]) (m.after c) cs := by
  obtain ⟨t, ht, hat, -⟩ := h.saveCandidate
  refine ⟨_, by rw [Scanner.openFlow, ht]; rfl, ?_⟩
  have hdepth : (none :: t.candidates).length = depth + 1 + 1 := by simp [hat.depth]
  refine hat.emit hsign hdepth ?_ hat.drop_rest rfl true t.here
  intro d hd
  simp only [List.mem_cons, reduceCtorEq, false_or] at hd
  exact hat.optional d hd

theorem closeFlow (h : s.At (depth + 1) allowed signs m (c :: cs)) {sign : Sign}
    (hsign : sign ≠ .streamEnd) :
    ∃ t, s.closeFlow sign = some t ∧ t.At depth false (signs ++ [sign]) (m.after c) cs := by
  obtain ⟨t, ht, hat⟩ := h.removeCandidate
  refine ⟨_, by rw [Scanner.closeFlow, ht]; rfl, ?_⟩
  have hdepth : (t.candidates.drop 1).length = depth + 1 := by simp [hat.depth]
  rw [hat.inFlow]
  exact hat.emit hsign hdepth (fun d hd => hat.optional d (List.mem_of_mem_drop hd)) hat.drop_rest
    rfl false t.here

theorem comma (h : s.At depth allowed signs m (c :: cs)) :
    ∃ t, s.comma = some t ∧ t.At depth true (signs ++ [.comma]) (m.after c) cs := by
  obtain ⟨t, ht, hat⟩ := h.removeCandidate
  refine ⟨_, by rw [Scanner.comma, ht]; rfl, ?_⟩
  exact hat.emit (by simp) hat.depth hat.optional hat.drop_rest rfl true t.here

theorem quotedScalar {text rest : List Char}
    (h : s.At depth allowed signs m ('"' :: written text rest)) :
    match refold {} false text with
    | none => s.quotedScalar false = none
    | some text' => ∃ t, s.quotedScalar false = some t ∧
        t.At depth false (signs ++ [.scalar .quoted (String.ofList text')])
          (endMark m ('"' :: written text [])) rest ∧
        (allowed = true → t.candidates.head? = some (some ⟨signs.length, false, m⟩)) := by
  obtain ⟨t, ht, hat, hhead⟩ := h.saveCandidate
  have hscan := folds text rest (m.after '"') {}
  have hcolumn : (m.after '"').column ≠ 0 := Nat.succ_ne_zero _
  rw [Folds, ← hat.drop_rest, decide_eq_false hcolumn] at hscan
  have hbind : s.quotedScalar false = do
      let scanned ← scanDouble {} 0 (t.rest.drop 1)
      return { t.scalar .quoted scanned with keyAllowed := false } := by
    rw [Scanner.quotedScalar, ht]
    rfl
  cases hfold : refold {} false text with
  | none =>
    rw [hbind, hscan, hfold]
    rfl
  | some text' =>
    rw [hfold] at hscan
    let scanned : Scanned := ⟨text', placed (endMark (m.after '"') (written text [])) rest⟩
    refine ⟨{ t.scalar .quoted scanned with keyAllowed := false }, by rw [hbind, hscan]; rfl, ?_,
      hhead⟩
    refine hat.emit (by simp) hat.depth hat.optional rfl ?_ false t.here
    rw [endMark_cons, ← endMark_append, written_append]

theorem plainScalar {text rest : List Char} {d : Char} (hd : closesValue d = true)
    (htext : ∀ c ∈ text, isWordChar c = true)
    (h : s.At (depth + 1) allowed signs m (text ++ d :: rest)) :
    ∃ t, s.plainScalar = some t ∧
      t.At (depth + 1) false (signs ++ [.scalar .plain (String.ofList text)]) (endMark m text)
        (d :: rest) := by
  obtain ⟨t, ht, hat, -⟩ := h.saveCandidate
  let scanned : Scanned := ⟨text, placed (endMark m text) (d :: rest)⟩
  refine ⟨{ t.scalar .plain scanned with keyAllowed := false }, ?_, ?_⟩
  · rw [Scanner.plainScalar, ht]
    change (scanPlain t.inFlow _ {} t.rest >>= _) = _
    rw [hat.indents, hat.inFlow, hat.rest, scanPlain_word htext hd]
    rfl
  · exact hat.emit (by simp) hat.depth hat.optional rfl (endMark_append ..).symm false t.here

theorem emitAt (h : s.At depth allowed signs m cs) {n : Nat} (hn : s.handed.length ≤ n)
    {sign : Sign} (hsign : sign ≠ .streamEnd) (mark : Mark) :
    (s.emitAt n sign mark).At depth allowed (signs.take n ++ sign :: signs.drop n) m cs where
  rest := h.rest
  finish := h.finish
  indents := h.indents
  depth := h.depth
  keyAllowed := h.keyAllowed
  signed := by
    have hlength : s.handed.reverse.length ≤ n := by simpa using hn
    rw [← h.signed, tokens, tokens, ← List.map_take, ← List.map_drop, List.take_append,
      List.drop_append, List.take_of_length_le hlength, List.drop_of_length_le hlength]
    simp [Scanner.emitAt]
  unended := by
    have htake := fun hmem => h.unended (List.mem_of_mem_take (i := n) hmem)
    have hdrop := fun hmem => h.unended (List.mem_of_mem_drop (i := n) hmem)
    simpa [hsign.symm] using ⟨htake, hdrop⟩
  optional := h.optional

theorem indentTo (h : s.At (depth + 1) allowed signs m cs) (column number : Nat) (sign : Sign)
    (mark : Mark) : s.indentTo column number sign mark = s := by
  rw [Scanner.indentTo, h.inFlow]
  rfl

private theorem value_of_candidate (h : s.At (depth + 1) allowed signs m (c :: cs)) {d : Candidate}
    (hhead : s.candidates.head? = some (some d)) :
    ∃ t, s.value = some t ∧
      t.At (depth + 1) false (signs.take d.number ++ .key :: signs.drop d.number ++ [.value])
        (m.after c) cs := by
  obtain ⟨outer, houter⟩ := List.head?_eq_some_iff.mp hhead
  have hnumber := (h.optional d (houter ▸ List.mem_cons_self)).2
  have hat := h.emitAt hnumber (show Sign.key ≠ .streamEnd by simp) d.mark
  have hdepth : (none :: outer).length = depth + 1 + 1 := by simpa [houter] using h.depth
  refine ⟨_, by rw [Scanner.value, houter], ?_⟩
  rw [hat.indentTo]
  refine hat.emit (by simp) hdepth ?_ hat.drop_rest rfl false _
  intro e he
  simp only [List.mem_cons, reduceCtorEq, false_or] at he
  exact h.optional e (houter ▸ List.mem_cons_of_mem _ he)

private theorem value_of_none (h : s.At (depth + 1) allowed signs m (c :: cs))
    (hhead : s.candidates.head? = some none) :
    ∃ t, s.value = some t ∧ t.At (depth + 1) false (signs ++ [.value]) (m.after c) cs := by
  obtain ⟨outer, houter⟩ := List.head?_eq_some_iff.mp hhead
  refine ⟨_, by rw [Scanner.value, houter]; simp only [h.inFlow, h.indentTo]; rfl, ?_⟩
  exact h.emit (by simp) h.depth h.optional h.drop_rest rfl false _

/-! Which token starts with a character. -/

private theorem token_opening {sign : Sign}
    (hsign : (c, sign) ∈ [('[', .flowListStart), ('\x7b', Sign.flowMapStart)])
    (h : s.At depth allowed signs m (c :: cs)) : s.token = s.openFlow sign := by
  simp only [List.mem_cons, Prod.mk.injEq, List.not_mem_nil, or_false] at hsign
  rw [token, h.rest, placed]
  rcases hsign with ⟨rfl, rfl⟩ | ⟨rfl, rfl⟩ <;> simp [not_atMarker]

private theorem token_closing {sign : Sign}
    (hsign : (c, sign) ∈ [(']', .flowListEnd), ('\x7d', Sign.flowMapEnd)])
    (h : s.At depth allowed signs m (c :: cs)) : s.token = s.closeFlow sign := by
  simp only [List.mem_cons, Prod.mk.injEq, List.not_mem_nil, or_false] at hsign
  rw [token, h.rest, placed]
  rcases hsign with ⟨rfl, rfl⟩ | ⟨rfl, rfl⟩ <;> simp [not_atMarker]

private theorem token_comma (h : s.At depth allowed signs m (',' :: cs)) : s.token = s.comma := by
  rw [token, h.rest, placed]
  simp [not_atMarker]

private theorem token_value (h : s.At (depth + 1) allowed signs m (':' :: cs)) : s.token = s.value := by
  rw [token, h.rest, placed]
  simp [not_atMarker, h.inFlow]

private theorem token_quoted (h : s.At depth allowed signs m ('"' :: cs)) :
    s.token = s.quotedScalar false := by
  rw [token, h.rest, placed]
  simp [not_atMarker]

private theorem token_word {text rest : List Char} (htext : IsWord text)
    (h : s.At (depth + 1) allowed signs m (text ++ rest)) : s.token = s.plainScalar := by
  obtain ⟨c, r, rfl, hc⟩ := htext.starts
  have hne {c : Char} (hc : c.isAlphanum = true) : ∀ d, d.isAlphanum = false → c ≠ d := by
    rintro d hd rfl
    rw [hc] at hd
    cases hd
  have hword := htext.isWordChar c List.mem_cons_self
  rw [token, h.rest, List.cons_append, placed]
  rcases hc with hc | ⟨rfl, d, r, rfl, hd⟩
  · simp [not_atMarker, hne hc, startsPlain, isBlank_of_isWordChar hword,
      isBreak_of_isWordChar hword]
  · have hmarker : atMarker (⟨'-', m⟩ :: placed (m.after '-') (d :: r ++ rest)) = false :=
      (atMarker_placed m ('-' :: d :: r ++ rest)).trans (by simp [startsRun, hne hd])
    have hword := htext.isWordChar d (by simp)
    dsimp only
    rw [hmarker]
    simp [placed, atGap, startsPlain, isBlank_of_isWordChar hword, isBreak_of_isWordChar hword]

/-! One step each. -/

theorem opened {sign : Sign}
    (hsign : (c, sign) ∈ [('[', .flowListStart), ('\x7b', Sign.flowMapStart)])
    (h : s.At depth allowed signs m (c :: cs)) :
    ∃ t, s.Reaches t ∧ t.At (depth + 1) true (signs ++ [sign]) (m.after c) cs := by
  refine h.step ?_ ?_ (Nat.le_refl _)
  · simp only [List.mem_cons, Prod.mk.injEq, List.not_mem_nil, or_false] at hsign
    rcases hsign with ⟨rfl, -⟩ | ⟨rfl, -⟩ <;> decide
  · rw [h.ready.token_opening hsign]
    refine h.ready.openFlow ?_
    rintro rfl
    simp at hsign

theorem closed {sign : Sign}
    (hsign : (c, sign) ∈ [(']', .flowListEnd), ('\x7d', Sign.flowMapEnd)])
    (h : s.At (depth + 1) allowed signs m (c :: cs)) :
    ∃ t, s.Reaches t ∧ t.At depth false (signs ++ [sign]) (m.after c) cs := by
  refine h.step ?_ ?_ (Nat.le_refl _)
  · simp only [List.mem_cons, Prod.mk.injEq, List.not_mem_nil, or_false] at hsign
    rcases hsign with ⟨rfl, -⟩ | ⟨rfl, -⟩ <;> decide
  · rw [h.ready.token_closing hsign]
    refine h.ready.closeFlow ?_
    rintro rfl
    simp at hsign

theorem separated (h : s.At depth allowed signs m (',' :: cs)) :
    ∃ t, s.Reaches t ∧ t.At depth true (signs ++ [.comma]) (m.after ',') cs :=
  h.step (by decide) (h.ready.token_comma ▸ h.ready.comma) (Nat.le_refl _)

theorem quoted {text rest : List Char} (h : s.At depth allowed signs m ('"' :: written text rest)) :
    match refold {} false text with
    | none => s.Breaks
    | some text' => ∃ t, s.Reaches t ∧
        t.At depth false (signs ++ [.scalar .quoted (String.ofList text')])
          (endMark m ('"' :: written text [])) rest ∧
        (allowed = true → t.candidates.head? = some (some ⟨signs.length, false, m⟩)) := by
  have hquoted := h.ready.quotedScalar
  rw [← h.ready.token_quoted] at hquoted
  cases hfold : refold {} false text with
  | none =>
    rw [hfold] at hquoted
    exact h.breaks (by decide) hquoted
  | some text' =>
    rw [hfold] at hquoted
    obtain ⟨t, ht, hat, hhead⟩ := hquoted
    have hlength : t.rest.length ≤ (written text rest).length := by
      rw [hat.rest, length_placed, ← written_append, List.length_append]
      omega
    exact ⟨t, h.reaches (by decide) ht hlength, hat, hhead⟩

theorem word {text rest : List Char} {d : Char} (hd : closesValue d = true) (htext : IsWord text)
    (h : s.At (depth + 1) allowed signs m (text ++ d :: rest)) :
    ∃ t, s.Reaches t ∧
      t.At (depth + 1) false (signs ++ [.scalar .plain (String.ofList text)]) (endMark m text)
        (d :: rest) := by
  have htoken := h.ready.plainScalar hd htext.isWordChar
  rw [← h.ready.token_word htext] at htoken
  obtain ⟨c, r, rfl, -⟩ := htext.starts
  have hword := htext.isWordChar c List.mem_cons_self
  have hc : isBlank c = false ∧ isBreak c = false ∧ c ≠ '#' ∧ c ≠ '\ufeff' :=
    ⟨isBlank_of_isWordChar hword, isBreak_of_isWordChar hword, ne_of_isWordChar hword rfl,
      ne_of_isWordChar hword (by decide)⟩
  exact h.step hc htoken (by simp)

theorem colon (h : s.At (depth + 1) allowed signs m (':' :: cs)) {d : Option Candidate}
    (hhead : s.candidates.head? = some d) :
    ∃ t, s.Reaches t ∧
      t.At (depth + 1) false
        (match unlessStale m d with
          | some d => signs.take d.number ++ .key :: signs.drop d.number ++ [.value]
          | none => signs ++ [.value]) (m.after ':') cs := by
  have hready : s.ready.candidates.head? = some (unlessStale m d) := by
    rw [h.candidates_ready, List.head?_map, hhead]
    rfl
  refine h.step (by decide) ?_ (Nat.le_refl _)
  rw [h.ready.token_value]
  cases hd : unlessStale m d with
  | none => exact h.ready.value_of_none (hd ▸ hready)
  | some d => exact h.ready.value_of_candidate (hd ▸ hready)

theorem streamEnd (h : s.At depth allowed signs m []) :
    ∃ t, s.streamEnd = some t ∧ t.tokens.map (·.sign) = signs ++ [.streamEnd] ∧
      t.dropStale.isNone = false := by
  let last : Mark := if s.finish.column = 0 then s.finish else ⟨s.finish.line + 1, 0⟩
  have hat : At { s with finish := last } depth allowed signs last [] :=
    ⟨h.rest, rfl, h.indents, h.depth, h.keyAllowed, h.signed, h.unended, h.optional⟩
  obtain ⟨t, ht, hat'⟩ := hat.removeCandidate
  let done : Scanner := { t with keyAllowed := false, queue := t.queue ++ [⟨.streamEnd, last⟩] }
  have hoptional : ∀ c, some c ∈ done.candidates → c.isRequired = false :=
    fun c hc => (hat'.optional c hc).1
  refine ⟨done, ?_, ?_, ?_⟩
  · change (({ s with finish := last }.closeBlocks fun _ => true).removeCandidate >>= _) = _
    rw [hat.closeBlocks, ht]
    rfl
  · rw [← hat'.signed, tokens, tokens]
    simp [done]
  · rw [dropStale_of_optional hoptional]
    rfl

theorem finished (h : s.At depth allowed signs m []) (fuel : Nat) :
    (run (fuel + 1) s).map (·.sign) = signs ++ [.streamEnd] := by
  obtain ⟨t, ht, hsigns, hfresh⟩ := h.ready.streamEnd
  have htoken : s.ready.token = some t := by
    rw [token, h.ready.rest]
    exact ht
  have hrest : s.ready.rest.isEmpty = true := by
    rw [h.ready.rest]
    rfl
  rw [run, h.advance_eq fun s h => h.toNextToken_of_nil, htoken]
  simp only [hrest, hfresh, Bool.not_true, Bool.false_eq_true, if_false]
  exact hsigns

end At
end CodeActions.Yaml.Scanner
