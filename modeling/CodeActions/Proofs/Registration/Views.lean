import CodeActions.Proofs.Registration.Slots
import CodeActions.Provider.Script
/-!
# Views

The views of a registry agree slot by slot, in whatever state a session has come to
(`views_agree`). Some of them show the names under which the slots are filed and others the names
that the providers go by at present; the two are the same where nobody was renamed after his
registration (`upToDate_run`).
-/
namespace CodeActions

theorem Histories.mem_put {hist : Histories} {history : List Registration} {h k : Handle}
    {e : Registration} (he : e ∈ hist.put h history k) : e ∈ history ∨ e ∈ hist k := by
  unfold put at he
  split at he
  · exact .inl he
  · exact .inr he

namespace Step

/-- The histories without the registrations of a provider that the step renames. -/
def outdate (hist : Histories) : Step → Histories
  | .rename p _ => fun h => (hist h).filter fun e => e.provider ≠ p
  | .new .. | .register .. | .tryRegister .. | .extend .. | .collect .. | .clone ..
  | .redescribe .. | .set .. | .polls .. | .query .. | .discover .. | .edits .. | .resolve .. => hist

variable {ps : Providers} {hist : Histories} {step : Step} {h : Handle} {e : Registration}

private theorem mem_record (he : e ∈ step.record ps hist h) :
    (∃ k, e ∈ hist k) ∨ e.name = (ps e.provider).name := by
  have hnow (isStrict : Bool) {qs : List Handle} (he : e ∈ qs.map (.now ps isStrict)) :
      e.name = (ps e.provider).name := by
    obtain ⟨q, -, rfl⟩ := List.mem_map.mp he
    rfl
  have happend (k : Handle) (isStrict : Bool) (qs : List Handle)
      (he : e ∈ hist.put k (hist k ++ qs.map (.now ps isStrict)) h) :
      (∃ k, e ∈ hist k) ∨ e.name = (ps e.provider).name := by
    rcases Histories.mem_put he with he | he
    · rcases List.mem_append.mp he with he | he
      · exact .inl ⟨k, he⟩
      · exact .inr (hnow isStrict he)
    · exact .inl ⟨h, he⟩
  cases step with
  | new k =>
    rcases Histories.mem_put he with he | he
    · cases he
    · exact .inl ⟨h, he⟩
  | register k q => exact happend k false [q] he
  | tryRegister k q => exact happend k true [q] he
  | extend k qs => exact happend k false qs he
  | collect k qs =>
    rcases Histories.mem_put he with he | he
    · exact .inr (hnow false he)
    · exact .inl ⟨h, he⟩
  | clone k source =>
    rcases Histories.mem_put he with he | he
    · exact .inl ⟨source, he⟩
    · exact .inl ⟨h, he⟩
  | rename | redescribe | set | polls | query | discover | edits | resolve => exact .inl ⟨h, he⟩

private theorem mem_outdate (he : e ∈ step.outdate hist h) :
    e ∈ hist h ∧ ∀ name, step ≠ .rename e.provider name := by
  cases step with
  | rename p name =>
    obtain ⟨hmem, hne⟩ := List.mem_filter.mp he
    refine ⟨hmem, ?_⟩
    rintro name ⟨⟩
    simp at hne
  | _ => exact ⟨he, fun name hstep => by cases hstep⟩

end Step

namespace Session

/-- The registrations that are left of the histories when a renaming ends those of the provider. -/
def unrenamed (s : Session) (hist : Histories) : List Step → Histories
  | [] => hist
  | step :: steps =>
      (s.step step).2.unrenamed (step.outdate (step.record s.providers hist)) steps

/-- The providers go by the names that they were registered under. -/
def UpToDate (s : Session) (hist : Histories) : Prop :=
  ∀ h, ∀ e ∈ hist h, (s.providers e.provider).name = e.name

variable {s : Session} {p : Handle}

private theorem name_step {step : Step} (hkeep : ∀ name, step ≠ .rename p name) :
    ((s.step step).2.providers p).name = (s.providers p).name := by
  cases step with
  | rename q name =>
    have hne : p ≠ q := by
      rintro rfl
      exact hkeep name rfl
    change (s.providers.update q _ p).name = _
    rw [Providers.update_of_ne _ _ hne]
  | redescribe q description =>
    change (s.providers.update q _ p).name = _
    by_cases hq : p = q
    · simp [hq]
    · simp [Providers.update_of_ne _ _ hq]
  | tryRegister h q =>
    by_cases htaken : (s.providers q).name ∈ (s.registries h).names
    · rw [step_tryRegister_of_taken htaken]
    · rw [step_tryRegister_of_free htaken]
      rfl
  | _ => rfl

theorem name_run {steps : List Step} (hkeep : ∀ name, .rename p name ∉ steps) :
    ((s.run steps).2.providers p).name = (s.providers p).name := by
  induction steps generalizing s with
  | nil => rfl
  | cons step steps ih =>
    simp only [List.mem_cons, not_or] at hkeep
    rw [run_cons_snd, ih fun name => (hkeep name).2]
    exact name_step fun name => Ne.symm (hkeep name).1

private theorem upToDate_step {hist : Histories} (hs : s.UpToDate hist) (step : Step) :
    (s.step step).2.UpToDate (step.outdate (step.record s.providers hist)) := by
  intro h e he
  obtain ⟨hrecord, hkeep⟩ := Step.mem_outdate he
  rw [name_step hkeep]
  rcases Step.mem_record hrecord with ⟨k, hk⟩ | hname
  · exact hs k e hk
  · exact hname.symm

theorem upToDate_run {hist : Histories} (hs : s.UpToDate hist) (steps : List Step) :
    (s.run steps).2.UpToDate (s.unrenamed hist steps) := by
  induction steps generalizing s hist with
  | nil => exact hs
  | cons step steps ih => exact ih (upToDate_step hs step)

private theorem UpToDate.name_of_mem {hist : Histories} (hs : s.UpToDate hist) {h : Handle}
    {registry : Registry Handle} {history : List Registration} (hfollows : registry.Follows history)
    (hkept : ∀ e ∈ history, registry.find? e.name = some e.provider → e ∈ hist h)
    {e : String × Handle} (he : e ∈ registry.entries) : (s.providers e.2).name = e.1 := by
  have hfind : registry.find? e.1 = some e.2 := Registry.find?_of_mem hfollows.nodup he
  have hholder := hfind
  rw [hfollows.find?_eq] at hholder
  obtain ⟨f, hf, hfname, hfprovider⟩ := Registration.exists_of_holder? hholder
  rw [← hfname, ← hfprovider] at hfind ⊢
  exact hs h f (hkept f hf hfind)

/-- The views of a registry agree in every session. No name occurs twice. Names, providers and
listings are as many as the size tells. A name is taken if something is found under it, and just
then it is among the names. At every place there is one slot: its name, the provider, who is the one
found under the name, the present name and description of that provider in the list, and the name
with the description in the summary. The names of the slots are the present names of the providers
unless one that is still in place was renamed since it was registered. -/
theorem views_agree (ps : Providers) (signals : Signals) (steps : List Step) (h : Handle) :
    let s := ((opening ps signals).run steps).2
    let registry := s.registries h
    let listings := registry.listings s.providers
    let history := (opening ps signals).record (fun _ => []) steps h
    let unrenamed := (opening ps signals).unrenamed (fun _ => []) steps h
    registry.names.Nodup ∧
    (registry.names.length = registry.size ∧ registry.toList.length = registry.size ∧
      listings.length = registry.size) ∧
    (registry.isEmpty = true ↔ registry.size = 0) ∧
    (∀ name, (registry.contains name = true ↔ ∃ p, registry.find? name = some p) ∧
      (registry.contains name = true ↔ name ∈ registry.names)) ∧
    (∃ lines : List String,
      registry.summary s.providers =
        "Refactor Registry: " ++ toString registry.size ++ " refactors\n" ++ String.join lines ∧
      lines.length = registry.size ∧
      ∀ i < registry.size, ∃ name p,
        registry.names[i]? = some name ∧ registry.toList[i]? = some p ∧
        registry.find? name = some p ∧
        listings[i]? = some ⟨(s.providers p).name, (s.providers p).description⟩ ∧
        lines[i]? = some ("  - " ++ name ++ " (" ++ (s.providers p).description ++ ")\n")) ∧
    ((∀ e ∈ history, registry.find? e.name = some e.provider → e ∈ unrenamed) →
      listings.map Listing.name = registry.names ∧
      registry.toList.map (fun p => (s.providers p).name) = registry.names) := by
  intro s registry listings history unrenamed
  have hfollows : registry.Follows history := follows_opening ps signals steps h
  refine ⟨hfollows.nodup, ?_, ?_, ?_, ?_, ?_⟩
  · simp [listings, Registry.names, Registry.toList, Registry.listings, Registry.size]
  · simp [Registry.isEmpty, Registry.size]
  · intro name
    exact ⟨Option.isSome_iff_exists, registry.contains_iff_mem_names name⟩
  · refine ⟨_, rfl, by simp [Registry.size], fun i hi => ?_⟩
    have hentry : registry.entries[i]? = some registry.entries[i] := List.getElem?_eq_getElem hi
    refine ⟨registry.entries[i].1, registry.entries[i].2, ?_, ?_, ?_, ?_, ?_⟩
    · simp [Registry.names, hentry]
    · simp [Registry.toList, hentry]
    · exact Registry.find?_of_mem hfollows.nodup (List.getElem_mem hi)
    · simp [listings, Registry.listings, Registry.toList, hentry, Provider.listing]
    · simp [hentry]
  · intro hkept
    have huptodate : s.UpToDate ((opening ps signals).unrenamed (fun _ => []) steps) :=
      upToDate_run (fun _ _ he => by cases he) steps
    have hnames : registry.toList.map (fun p => (s.providers p).name) = registry.names := by
      rw [Registry.toList, List.map_map]
      exact List.map_congr_left fun _ he => huptodate.name_of_mem hfollows hkept he
    refine ⟨?_, hnames⟩
    rw [← hnames]
    simp [listings, Registry.listings, Provider.listing]

/-- A provider that was renamed before it was registered, in a copy of the registry. -/
theorem views_agree_of_copy :
    let s := opening (fun h => ({} : Script).provider h h) fun _ => .flag false
    let steps : List Step := [.rename "p" "q", .extend "a" ["p", "t"], .clone "b" "a"]
    let registry := (s.run steps).2.registries "b"
    let listings := registry.listings (s.run steps).2.providers
    (∀ e ∈ s.record (fun _ => []) steps "b", registry.find? e.name = some e.provider →
      e ∈ s.unrenamed (fun _ => []) steps "b") ∧
    registry.toList = ["p", "t"] ∧ registry.names = ["q", "t"] ∧
    listings.map Listing.name = registry.names := by
  intro s steps registry listings
  have hkept : ∀ e ∈ s.record (fun _ => []) steps "b", registry.find? e.name = some e.provider →
      e ∈ s.unrenamed (fun _ => []) steps "b" := fun _ he _ => he
  obtain ⟨-, -, -, -, -, hnames⟩ := views_agree s.providers s.signals steps "b"
  exact ⟨hkept, by decide, by decide, (hnames hkept).1⟩

end Session
end CodeActions
