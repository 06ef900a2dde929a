import CodeActions.Proofs.Registration.Slots
/-!
# Strict registrations

A strict registration is refused without a trace if the name is taken and is an ordinary one if it
is free. Registrations one after the other therefore leave the same names whether they are strict
or not (`names_strictly`), but strict ones leave the first provider of each name in place
(`find?_strictly`).
-/
namespace CodeActions
namespace Session
variable {s t : Session} {h p : Handle}

/-- The session after providers are registered in turn, each unless its name is taken. -/
def strictly (s : Session) (h : Handle) (ps : List Handle) : Session :=
  (s.run (ps.map (.tryRegister h))).2

/-- The session after providers are registered in turn, each over any that has its name. -/
def loosely (s : Session) (h : Handle) (ps : List Handle) : Session :=
  (s.run (ps.map (.register h))).2

theorem step_tryRegister_eq_of_free (hfree : (s.providers p).name ∉ (s.registries h).names) :
    s.step (.tryRegister h p) = s.step (.register h p) := by
  have hunknown : (s.registries h).find? (s.providers p).name = none := by
    rw [← Option.not_isSome_iff_eq_none]
    exact fun htaken => hfree ((Registry.contains_iff_mem_names _ _).mp htaken)
  simp only [step, Registry.tryRegister_of_free hfree, Registry.register, hunknown]

theorem step_tryRegister_eq_of_taken (htaken : (s.providers p).name ∈ (s.registries h).names) :
    s.step (.tryRegister h p) =
      (⟨.registered (s.registries h).names (some (.duplicateName (s.providers p).name)), []⟩, s) := by
  simp only [step, Registry.tryRegister_of_taken htaken]

theorem events_register_of_free (hfree : (s.providers p).name ∉ (s.registries h).names) :
    (s.step (.register h p)).1.events = [.notice (.registered (s.providers p).name)] := by
  rw [← step_tryRegister_eq_of_free hfree]
  simp only [step, Registry.tryRegister_of_free hfree]
  rfl

private theorem providers_tryRegister (s : Session) (h p : Handle) :
    (s.step (.tryRegister h p)).2.providers = s.providers := by
  by_cases htaken : (s.providers p).name ∈ (s.registries h).names
  · rw [step_tryRegister_of_taken htaken]
  · rw [step_tryRegister_of_free htaken]
    rfl

private theorem names_tryRegister (s : Session) (h p : Handle) :
    ((s.step (.tryRegister h p)).2.registries h).names =
      ((s.step (.register h p)).2.registries h).names := by
  by_cases htaken : (s.providers p).name ∈ (s.registries h).names
  · rw [step_tryRegister_of_taken htaken, step_register, withRegistry_same,
      Registry.names_insert, if_pos htaken]
  · rw [step_tryRegister_eq_of_free htaken]

private theorem find?_tryRegister (s : Session) (h p : Handle) (name : String) :
    ((s.step (.tryRegister h p)).2.registries h).find? name =
      ((s.registries h).find? name).or
        (if (s.providers p).name = name then some p else none) := by
  by_cases htaken : (s.providers p).name ∈ (s.registries h).names
  · rw [step_tryRegister_of_taken htaken]
    split
    case isTrue hname =>
      obtain ⟨q, hq⟩ := ((s.registries h).mem_names_iff_find? _).mp htaken
      rw [← hname, hq, Option.some_or]
    case isFalse => rw [Option.or_none]
  · rw [step_tryRegister_of_free htaken, withRegistry_same, Registry.find?_insert]
    by_cases hname : name = (s.providers p).name
    · have hunknown : (s.registries h).find? name = none := by
        rw [← Option.not_isSome_iff_eq_none, hname]
        exact fun hknown => htaken ((Registry.contains_iff_mem_names _ _).mp hknown)
      rw [if_pos hname, if_pos hname.symm, hunknown, Option.none_or]
    · rw [if_neg hname, if_neg (Ne.symm hname), Option.or_none]

/-- Names come to the same in the same order, whether registrations are strict or not. -/
theorem names_strictly (hproviders : s.providers = t.providers)
    (hnames : (s.registries h).names = (t.registries h).names) (ps : List Handle) :
    ((s.strictly h ps).registries h).names = ((t.loosely h ps).registries h).names := by
  induction ps generalizing s t with
  | nil => exact hnames
  | cons p ps ih =>
    have hproviders' : (s.step (.tryRegister h p)).2.providers =
        (t.step (.register h p)).2.providers := by
      rw [providers_tryRegister, hproviders]
      rfl
    have hnames' : ((s.step (.tryRegister h p)).2.registries h).names =
        ((t.step (.register h p)).2.registries h).names := by
      rw [names_tryRegister, step_register, step_register, withRegistry_same, withRegistry_same,
        Registry.names_insert, Registry.names_insert, hproviders, hnames]
    exact ih hproviders' hnames'

/-- Strict registrations keep whoever comes first under a name. -/
theorem find?_strictly (s : Session) (h : Handle) (ps : List Handle) (name : String) :
    ((s.strictly h ps).registries h).find? name =
      ((s.registries h).find? name).or (ps.find? fun q => (s.providers q).name = name) := by
  induction ps generalizing s with
  | nil => exact (Option.or_none).symm
  | cons p ps ih =>
    have htail := ih (s.step (.tryRegister h p)).2
    rw [providers_tryRegister, find?_tryRegister] at htail
    change ((s.step (.tryRegister h p)).2.strictly h ps |>.registries h).find? name = _
    rw [htail, Option.or_assoc, List.find?_cons]
    by_cases hname : (s.providers p).name = name
    · simp [hname]
    · simp [hname]

/-- A strict registration fails just if the name is taken. It then tells the name, gives no notice
and leaves the whole session as it was. If the name is free it is the same step as an ordinary
registration, with the one notice of that. Registrations in turn therefore come to the same names
in the same order if all of them are strict and if none is; if all are, whoever was there before
stays under a name, and otherwise the first that was registered under it. -/
theorem strict_registration_is_atomic (s : Session) (h p : Handle) :
    let name := (s.providers p).name
    let registry := s.registries h
    let strict := s.step (.tryRegister h p)
    ((∃ names failure, strict.1.answer = .registered names (some failure)) ↔
      registry.contains name = true) ∧
    (registry.contains name = true →
      strict = (⟨.registered registry.names (some (.duplicateName name)), []⟩, s)) ∧
    (registry.contains name = false →
      strict = s.step (.register h p) ∧ strict.1.events = [.notice (.registered name)]) ∧
    ∀ ps : List Handle,
      ((s.strictly h ps).registries h).names = ((s.loosely h ps).registries h).names ∧
      ∀ n, ((s.strictly h ps).registries h).find? n =
        (registry.find? n).or (ps.find? fun q => (s.providers q).name = n) := by
  intro name registry strict
  have htaken (hcontains : registry.contains name = true) :
      strict = (⟨.registered registry.names (some (.duplicateName name)), []⟩, s) :=
    step_tryRegister_eq_of_taken ((registry.contains_iff_mem_names name).mp hcontains)
  have hfree (hcontains : registry.contains name = false) :
      strict = s.step (.register h p) ∧ strict.1.events = [.notice (.registered name)] := by
    have hmem : name ∉ registry.names := by
      rw [← registry.contains_iff_mem_names, hcontains]
      exact Bool.false_ne_true
    have hsame : strict = s.step (.register h p) := step_tryRegister_eq_of_free hmem
    exact ⟨hsame, hsame ▸ events_register_of_free hmem⟩
  refine ⟨⟨?_, ?_⟩, htaken, hfree, fun ps => ⟨names_strictly rfl rfl ps, find?_strictly s h ps⟩⟩
  · rintro ⟨names, failure, hanswer⟩
    by_contra hcontains
    rw [(hfree (Bool.eq_false_iff.mpr hcontains)).1] at hanswer
    cases hanswer
  · intro hcontains
    rw [htaken hcontains]
    exact ⟨_, _, rfl⟩

end Session
end CodeActions
