import CodeActions.Proofs.Registration.History
/-!
# Histories in sessions

Every registry of a session follows its history: what was registered in it since it was new, or
since it was collected, together with the history of the registry that it was copied from.
-/
namespace CodeActions

abbrev Histories : Type := Handle → List Registration

def Histories.put (hist : Histories) (h : Handle) (history : List Registration) : Histories :=
  fun k => if k = h then history else hist k

namespace Step

/-- The histories after a step. Names are the ones that the providers have at the time. -/
def record (ps : Providers) (hist : Histories) : Step → Histories
  | .new h => hist.put h []
  | .register h p => hist.put h (hist h ++ [.now ps false p])
  | .tryRegister h p => hist.put h (hist h ++ [.now ps true p])
  | .extend h hs => hist.put h (hist h ++ hs.map (.now ps false))
  | .collect h hs => hist.put h (hs.map (.now ps false))
  | .clone h source => hist.put h (hist source)
  | .rename .. | .redescribe .. | .set .. | .polls .. | .query .. | .discover .. | .edits ..
  | .resolve .. => hist

def restarts (h : Handle) : Step → Bool
  | .new k | .collect k _ | .clone k _ => k == h
  | _ => false

end Step

namespace Registry
variable {r : Registry Handle} {history : List Registration}

theorem Follows.register (h : r.Follows history) (ps : Providers) (p : Handle) :
    (r.register ps p).1.Follows (history ++ [.now ps false p]) :=
  h.insert (.now ps false p) fun hs => absurd hs Bool.false_ne_true

theorem Follows.registerAll (h : r.Follows history) (ps : Providers) (hs : List Handle) :
    (r.registerAll ps hs).1.Follows (history ++ hs.map (.now ps false)) := by
  induction hs generalizing r history with
  | nil =>
    rw [List.map_nil, List.append_nil]
    exact h
  | cons p hs ih =>
    rw [List.map_cons, List.append_cons]
    exact ih (h.register ps p)

theorem tryRegister_of_free {ps : Providers} {p : Handle} (hfree : (ps p).name ∉ r.names) :
    r.tryRegister ps p = .ok (r.insert (ps p).name p, .registered (ps p).name) := by
  rw [← contains_iff_mem_names] at hfree
  exact if_neg hfree

theorem tryRegister_of_taken {ps : Providers} {p : Handle} (htaken : (ps p).name ∈ r.names) :
    r.tryRegister ps p = .error (.duplicateName (ps p).name) := by
  rw [← contains_iff_mem_names] at htaken
  exact if_pos htaken

private theorem names_prefix_register (r : Registry Handle) (ps : Providers) (p : Handle) :
    r.names <+: (r.register ps p).1.names := by
  change _ <+: (r.insert _ _).names
  rw [names_insert]
  split
  · exact List.prefix_rfl
  · exact List.prefix_append _ _

private theorem names_prefix_registerAll (r : Registry Handle) (ps : Providers) (hs : List Handle) :
    r.names <+: (r.registerAll ps hs).1.names := by
  induction hs generalizing r with
  | nil => exact List.prefix_rfl
  | cons p hs ih => exact (r.names_prefix_register ps p).trans (ih _)

end Registry

namespace Session

def opening (ps : Providers) (signals : Signals) : Session := ⟨ps, signals, fun _ => {}⟩

def record (s : Session) (hist : Histories) : List Step → Histories
  | [] => hist
  | step :: steps => (s.step step).2.record (step.record s.providers hist) steps

def Follows (s : Session) (hist : Histories) : Prop := ∀ h, (s.registries h).Follows (hist h)

theorem step_tryRegister_of_free {s : Session} {h p : Handle}
    (hfree : (s.providers p).name ∉ (s.registries h).names) :
    (s.step (.tryRegister h p)).2 =
      s.withRegistry h ((s.registries h).insert (s.providers p).name p) := by
  simp only [step, Registry.tryRegister_of_free hfree, keep]

theorem step_tryRegister_of_taken {s : Session} {h p : Handle}
    (htaken : (s.providers p).name ∈ (s.registries h).names) :
    (s.step (.tryRegister h p)).2 = s := by
  simp only [step, Registry.tryRegister_of_taken htaken]

private theorem follows_withRegistry {s : Session} {hist : Histories} (hs : s.Follows hist) {h : Handle}
    {r : Registry Handle} {history : List Registration} (hr : r.Follows history) :
    (s.withRegistry h r).Follows (hist.put h history) := by
  intro k
  by_cases hk : k = h
  · subst hk
    simpa [Histories.put] using hr
  · rw [withRegistry_of_ne s r hk]
    simpa [Histories.put, hk] using hs k

/-- A step changes every registry as it changes the history. -/
theorem follows_step {s : Session} {hist : Histories} (hs : s.Follows hist) (step : Step) :
    (s.step step).2.Follows (step.record s.providers hist) := by
  cases step with
  | new h => exact follows_withRegistry hs .empty
  | register h p => exact follows_withRegistry hs ((hs h).register s.providers p)
  | tryRegister h p =>
    by_cases htaken : (s.providers p).name ∈ (s.registries h).names
    · have hrefused := follows_withRegistry (h := h) hs
        ((hs h).refuse (e := .now s.providers true p) rfl htaken)
      rw [withRegistry_self] at hrefused
      rw [step_tryRegister_of_taken htaken]
      exact hrefused
    · rw [step_tryRegister_of_free htaken]
      exact follows_withRegistry hs ((hs h).insert (.now s.providers true p) fun _ => htaken)
  | extend h ps => exact follows_withRegistry hs ((hs h).registerAll s.providers ps)
  | collect h ps => exact follows_withRegistry hs (Registry.Follows.empty.registerAll s.providers ps)
  | clone h source => exact follows_withRegistry hs (hs source)
  | rename | redescribe | set | polls | query | discover | edits | resolve => exact hs

theorem follows_run {s : Session} {hist : Histories} (hs : s.Follows hist) (steps : List Step) :
    (s.run steps).2.Follows (s.record hist steps) := by
  induction steps generalizing s hist with
  | nil => exact hs
  | cons step steps ih => exact ih (follows_step hs step)

theorem follows_opening (ps : Providers) (signals : Signals) (steps : List Step) :
    ((opening ps signals).run steps).2.Follows
      ((opening ps signals).record (fun _ => []) steps) :=
  follows_run (fun _ => .empty) steps

private theorem names_prefix_step (s : Session) (h : Handle) {step : Step}
    (hkeep : step.restarts h = false) :
    (s.registries h).names <+: ((s.step step).2.registries h).names := by
  have hput (k : Handle) (r : Registry Handle) (hr : (s.registries k).names <+: r.names) :
      (s.registries h).names <+: ((s.withRegistry k r).registries h).names := by
    by_cases hk : h = k
    · subst hk
      rw [withRegistry_same]
      exact hr
    · simp [withRegistry_of_ne s r hk]
  have hother (k : Handle) (r : Registry Handle) (hk : (k == h) = false) :
      (s.registries h).names <+: ((s.withRegistry k r).registries h).names := by
    have hne : h ≠ k := Ne.symm (by simpa using hk)
    simp [withRegistry_of_ne s r hne]
  cases step with
  | new k => exact hother k _ hkeep
  | register k p => exact hput k _ (Registry.names_prefix_register _ _ _)
  | tryRegister k p =>
    by_cases htaken : (s.providers p).name ∈ (s.registries k).names
    · simp [step_tryRegister_of_taken htaken]
    · rw [step_tryRegister_of_free htaken]
      exact hput k _ (Registry.names_prefix_register _ s.providers p)
  | extend k ps => exact hput k _ (Registry.names_prefix_registerAll _ _ _)
  | collect k ps => exact hother k _ hkeep
  | clone k source => exact hother k _ hkeep
  | rename | redescribe | set | polls | query | discover | edits | resolve =>
    exact List.prefix_rfl

private theorem names_prefix_run (s : Session) (h : Handle) {steps : List Step}
    (hkeep : ∀ step ∈ steps, step.restarts h = false) :
    (s.registries h).names <+: ((s.run steps).2.registries h).names := by
  induction steps generalizing s with
  | nil => exact List.prefix_rfl
  | cons step steps ih =>
    have hfirst := names_prefix_step s h (hkeep step List.mem_cons_self)
    exact hfirst.trans (ih _ fun other hother => hkeep other (List.mem_cons_of_mem _ hother))

/-- A registry is determined by its history. Its names are those of the history in the order of
their first occurrence; whoever is found under a name is the last to have been registered over the
first, or else the first; and no registration ever moves a name. -/
theorem registry_eq_history (ps : Providers) (signals : Signals) (steps : List Step) (h : Handle) :
    let s := ((opening ps signals).run steps).2
    let history := (opening ps signals).record (fun _ => []) steps h
    (s.registries h).names = (history.map Registration.name).eraseDups ∧
    (s.registries h).names.Nodup ∧
    (∀ name, (s.registries h).find? name = Registration.holder? history name) ∧
    (∀ name, (s.registries h).find? name = none ↔ ∀ e ∈ history, e.name ≠ name) ∧
    (∀ more : List Step, (∀ step ∈ more, step.restarts h = false) →
      (s.registries h).names <+:
        (((opening ps signals).run (steps ++ more)).2.registries h).names) ∧
    (∀ p, (s.providers p).name ∈ (s.registries h).names →
      ((s.step (.register h p)).2.registries h).names = (s.registries h).names) := by
  intro s history
  have hfollows : (s.registries h).Follows history := follows_opening ps signals steps h
  refine ⟨hfollows.names_eq, hfollows.nodup, hfollows.find?_eq, hfollows.find?_eq_none_iff, ?_, ?_⟩
  · intro more hkeep
    rw [run_append_snd]
    exact names_prefix_run s h hkeep
  · intro p htaken
    change ((s.withRegistry h ((s.registries h).insert _ _)).registries h).names = _
    rw [withRegistry_same, Registry.names_insert, if_pos htaken]

end Session
end CodeActions
