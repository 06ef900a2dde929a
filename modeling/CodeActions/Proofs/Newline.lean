import CodeActions.Dispatch
/-!
# Newlines for edits

Three sources may give the newline of a context: the option `newLineCharacter`, the host, and the
default. The newline is the first text among them that is not empty (`isFirstGiven_newLineFor`), and
there is no other such text (`IsFirstGiven.unique`). So contexts that agree on the sources have the
same newline, of whatever kind they are.

The parts of a context are asked for one at a time. On the way to the newline nothing happens but
what comes of asking for them (`Access.causes_of_mem_textChanges`), so no signal is polled.
-/
namespace CodeActions

/-- `text` is the first that is not empty among texts that may be missing. -/
def IsFirstGiven (text : String) (sources : List (Option String)) : Prop :=
  ∃ before after, sources = before ++ some text :: after ∧ text ≠ "" ∧
    ∀ source ∈ before, source = none ∨ source = some ""

private theorem isFirstGiven_cons_iff {text : String} {source : Option String}
    {rest : List (Option String)} :
    IsFirstGiven text (source :: rest) ↔
      (source = some text ∧ text ≠ "") ∨
        ((source = none ∨ source = some "") ∧ IsFirstGiven text rest) := by
  constructor
  · rintro ⟨before, after, hsources, htext, hbefore⟩
    cases before with
    | nil =>
      obtain ⟨rfl, -⟩ := List.cons.inj hsources
      exact .inl ⟨rfl, htext⟩
    | cons head before =>
      obtain ⟨rfl, hrest⟩ := List.cons.inj hsources
      obtain ⟨hhead, hbefore⟩ := List.forall_mem_cons.mp hbefore
      exact .inr ⟨hhead, before, after, hrest, htext, hbefore⟩
  · rintro (⟨rfl, htext⟩ | ⟨hsource, before, after, rfl, htext, hbefore⟩)
    · exact ⟨[], rest, rfl, htext, List.forall_mem_nil _⟩
    · exact ⟨source :: before, after, rfl, htext, List.forall_mem_cons.mpr ⟨hsource, hbefore⟩⟩

private theorem IsFirstGiven.ne_empty {text : String} {sources : List (Option String)}
    (h : IsFirstGiven text sources) : text ≠ "" := by
  obtain ⟨before, after, -, htext, -⟩ := h
  exact htext

theorem IsFirstGiven.unique {text other : String} {sources : List (Option String)}
    (htext : IsFirstGiven text sources) (hother : IsFirstGiven other sources) : text = other := by
  induction sources with
  | nil =>
    obtain ⟨before, after, hsources, -⟩ := htext
    exact absurd hsources.symm (List.append_ne_nil_of_right_ne_nil _ (List.cons_ne_nil _ _))
  | cons source rest ih =>
    rcases isFirstGiven_cons_iff.mp htext with ⟨rfl, hne⟩ | ⟨hskip, htext⟩
    · rcases isFirstGiven_cons_iff.mp hother with ⟨hsame, -⟩ | ⟨hskip, -⟩
      · exact Option.some.inj hsame
      · simp [hne] at hskip
    · rcases isFirstGiven_cons_iff.mp hother with ⟨rfl, hne⟩ | ⟨-, hother⟩
      · simp [hne] at hskip
      · exact ih htext hother

theorem IsFirstGiven.cons {text : String} {rest : List (Option String)}
    (h : IsFirstGiven text rest) (source : Option String) :
    IsFirstGiven ((source.filter (· ≠ "")).getD text) (source :: rest) := by
  rw [isFirstGiven_cons_iff]
  cases source with
  | none => exact .inr ⟨.inl rfl, h⟩
  | some given =>
    by_cases hempty : given = ""
    · subst hempty
      exact .inr ⟨.inr rfl, h⟩
    · rw [Option.filter_some_pos (by simpa using hempty)]
      exact .inl ⟨rfl, hempty⟩

private theorem isFirstGiven_default : IsFirstGiven defaultNewLine [some "\r\n"] :=
  ⟨[], [], rfl, by decide, List.forall_mem_nil _⟩

/-- The option `newLineCharacter`, if there are options and it is set among them. -/
def Formatting.newLineCharacter? (f : Formatting) : Option String :=
  f.options.bind (·.newLineCharacter)

private theorem Formatting.newLineCharacter?_withNewLine {f : Formatting} {s : Settings} {newLine : String}
    (h : f.options = some (s.withNewLine newLine)) : f.newLineCharacter? = some newLine := by
  rw [newLineCharacter?, h]
  rfl

section
variable {ρ σ : Type} [Formatted ρ] [Formatted σ]

/-- What can give a newline, first things first. -/
def newLineSources (r : ρ) : List (Option String) :=
  [(Formatted.formatting r).newLineCharacter?, (Formatted.host r).newLine, some "\r\n"]

theorem isFirstGiven_newLineFor (r : ρ) : IsFirstGiven (newLineFor r) (newLineSources r) := by
  have hhost := isFirstGiven_default.cons (Formatted.host r).newLine
  have hoption := hhost.cons (Formatted.formatting r).newLineCharacter?
  rwa [← Option.getD_or] at hoption

private theorem newLineFor_eq_of_sources {r : ρ} {q : σ} (h : newLineSources q = newLineSources r) :
    newLineFor q = newLineFor r :=
  (h ▸ isFirstGiven_newLineFor q).unique (isFirstGiven_newLineFor r)

end

private theorem Run.exists_mem_of_mem_andThen {α β : Type} {r : Run α} {next : α → Signals → Run β}
    {e : Event} (h : e ∈ (r.andThen next).events) :
    e ∈ r.events ∨ ∃ a s, e ∈ (next a s).events := by
  cases houtcome : r.outcome with
  | error text =>
    rw [andThen_of_error houtcome] at h
    exact .inl h
  | ok a =>
    rw [andThen_of_ok houtcome] at h
    exact (List.mem_append.mp h).imp_right fun h => ⟨a, r.signals, h⟩

/-- How one comes by the parts of a context: to ask for one is a run, on which anything may
happen. -/
structure Access where
  formatting : Signals → Run Formatting
  host : Signals → Run Host

namespace Access

/-- The access to a context that has its parts at hand. -/
def of {ρ : Type} [Formatted ρ] (r : ρ) : Access where
  formatting s := ⟨.ok (Formatted.formatting r), s, []⟩
  host s := ⟨.ok (Formatted.host r), s, []⟩

variable (a : Access)

/-- The newline, in steps: the host is asked only if the options do not give one. -/
def newLine (s : Signals) : Run String :=
  (a.formatting s).andThen fun f s =>
    match f.newLine? with
    | some newLine => ⟨.ok newLine, s, []⟩
    | none => (a.host s).map fun host => (host.newLine.filter (· ≠ "")).getD defaultNewLine

def textChanges (s : Signals) : Run TextChanges :=
  (a.newLine s).andThen fun newLine s => (a.formatting s).map (TextChanges.mk newLine)

/-- An event that may happen when a part is asked for. -/
def Causes (e : Event) : Prop := ∃ s, e ∈ (a.formatting s).events ∨ e ∈ (a.host s).events

/-- Whatever happens on the way, the parts are those of `r`. -/
def LeadsTo {ρ : Type} [Formatted ρ] (r : ρ) : Prop :=
  ∀ s, (a.formatting s).outcome = .ok (Formatted.formatting r) ∧
    (a.host s).outcome = .ok (Formatted.host r)

private theorem causes_of_mem_newLine {s : Signals} {e : Event} (h : e ∈ (a.newLine s).events) :
    a.Causes e := by
  rcases Run.exists_mem_of_mem_andThen h with h | ⟨f, s, h⟩
  · exact ⟨_, .inl h⟩
  · cases hoption : f.newLine? with
    | some newLine =>
      rw [hoption] at h
      cases h
    | none =>
      rw [hoption] at h
      exact ⟨s, .inr h⟩

theorem causes_of_mem_textChanges {s : Signals} {e : Event} (h : e ∈ (a.textChanges s).events) :
    a.Causes e := by
  rcases Run.exists_mem_of_mem_andThen h with h | ⟨newLine, s, h⟩
  · exact a.causes_of_mem_newLine h
  · exact ⟨s, .inl h⟩

variable {a} {ρ : Type} [Formatted ρ] {r : ρ}

private theorem outcome_newLine (h : a.LeadsTo r) (s : Signals) :
    (a.newLine s).outcome = .ok (newLineFor r) := by
  rw [newLine, Run.andThen_of_ok (h s).1, newLineFor]
  cases (Formatted.formatting r).newLine? with
  | some newLine => rfl
  | none => exact congrArg (Except.map _) (h _).2

private theorem outcome_textChanges (h : a.LeadsTo r) (s : Signals) :
    (a.textChanges s).outcome = .ok (TextChanges.of r) := by
  rw [textChanges, Run.andThen_of_ok (outcome_newLine h s)]
  exact congrArg (Except.map _) (h _).1

private theorem newLine_of (r : ρ) (s : Signals) : (of r).newLine s = ⟨.ok (newLineFor r), s, []⟩ := by
  rw [newLine, Run.andThen_of_ok rfl, newLineFor]
  cases (Formatted.formatting r).newLine? <;> rfl

private theorem textChanges_of (r : ρ) (s : Signals) :
    (of r).textChanges s = ⟨.ok (TextChanges.of r), s, []⟩ := by
  rw [textChanges, newLine_of, Run.andThen_of_ok rfl]
  rfl

end Access

/-- The newline of any context is the first text that is not empty among the option
`newLineCharacter`, the newline of the host and CR LF, and is not empty itself. It goes unchanged
into what is needed to turn edits into text, next to the formatting. An option that was put in later
counts like any other. Contexts of any two kinds that agree on the option and on the host's newline
have the same newline, whatever else they hold. Nothing happens on the way to it but what comes of
asking the context for its parts: where these are at hand, no signal is polled and all of them stay
as they are. -/
theorem newLine_from_sources {ρ : Type} [Formatted ρ] (r : ρ) :
    let f := Formatted.formatting r
    let host := Formatted.host r
    let newLine := newLineFor r
    IsFirstGiven newLine [f.newLineCharacter?, host.newLine, some "\r\n"] ∧
    newLine ≠ "" ∧
    TextChanges.of r = ⟨newLine, f⟩ ∧
    (∀ (settings : Settings) (other : String), f.options = some (settings.withNewLine other) →
      IsFirstGiven newLine [some other, host.newLine, some "\r\n"]) ∧
    (∀ {σ : Type} [Formatted σ] (q : σ),
      (Formatted.formatting q).newLineCharacter? = f.newLineCharacter? →
      (Formatted.host q).newLine = host.newLine → newLineFor q = newLine) ∧
    (∀ (a : Access) (s : Signals), a.LeadsTo r →
      (a.newLine s).outcome = .ok newLine ∧ (a.textChanges s).outcome = .ok (TextChanges.of r) ∧
      ∀ e ∈ (a.newLine s).events ++ (a.textChanges s).events, a.Causes e) ∧
    ∀ s : Signals, (Access.of r).newLine s = ⟨.ok newLine, s, []⟩ ∧
      (Access.of r).textChanges s = ⟨.ok (TextChanges.of r), s, []⟩ := by
  intro f host newLine
  have hfirst : IsFirstGiven newLine [f.newLineCharacter?, host.newLine, some "\r\n"] :=
    isFirstGiven_newLineFor r
  refine ⟨hfirst, hfirst.ne_empty, rfl, ?_, ?_, ?_, ?_⟩
  · intro settings other hoptions
    rwa [Formatting.newLineCharacter?_withNewLine hoptions] at hfirst
  · intro σ _ q hoption hhost
    exact newLineFor_eq_of_sources (by rw [newLineSources, hoption, hhost]; rfl)
  · intro a s hleads
    refine ⟨Access.outcome_newLine hleads s, Access.outcome_textChanges hleads s, fun e he => ?_⟩
    rcases List.mem_append.mp he with he | he
    · exact a.causes_of_mem_newLine he
    · exact a.causes_of_mem_textChanges he
  · intro s
    exact ⟨Access.newLine_of r s, Access.textChanges_of r s⟩

example : newLineFor (FixRequest.mk ⟨some "\n"⟩ ⟨some { newLineCharacter := some "" }⟩) = "\n" := by
  decide

end CodeActions
