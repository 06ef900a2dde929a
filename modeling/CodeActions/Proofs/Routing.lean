import CodeActions.Proofs.Discovery.Pass
import CodeActions.Proofs.Registration.Sessions
/-!
# Routing of edit requests

A request for an edit reaches the provider that the history of the registry leaves under the name,
and nobody else; there is no failure but an unknown name. Both ways to ask do the same.
-/
namespace CodeActions

private theorem Signals.polls_update_set (s : Signals) (h k : Handle) (value : Bool) :
    (s.update h (Signal.set value) k).polls = (s k).polls := by
  by_cases hk : k = h
  · subst hk
    rw [update_same]
    cases s k <;> rfl
  · rw [update_of_ne s _ hk]

private theorem Signals.polls_setAll (s : Signals) (k : Handle) (sets : List (Handle × Bool)) :
    (s.setAll sets k).polls = (s k).polls := by
  induction sets generalizing s with
  | nil => rfl
  | cons head rest ih =>
    obtain ⟨h, value⟩ := head
    rw [setAll, ih, polls_update_set]

namespace Dispatch
variable (ps : Providers) (r : Request) {registry : Registry Handle} {name : String}

theorem resolve_of_unknown (hunknown : registry.find? name = none) (action : String)
    (s : Signals) :
    resolve ps r registry name action s =
      ⟨.ok (.error (.unknownName name)), s, [.notice (.unknown name)]⟩ := by
  unfold resolve
  rw [hunknown]

theorem resolve_of_known {p : Handle} (hknown : registry.find? name = some p) (action : String)
    (s : Signals) :
    let reply := (ps p).edit r action s
    resolve ps r registry name action s =
      ⟨reply.outcome.map .ok, s.setAll reply.sets,
        [.notice (.requested action name), .call (r.call p (some action))] ++
          match reply.outcome with
          | .ok none => [.notice (.declined action name)]
          | .ok (some _) | .error _ => []⟩ := by
  intro reply
  unfold resolve
  rw [hknown]
  change ((reply.run (r.call p (some action)) s).andThen _).after _ = _
  unfold Reply.run
  cases houtcome : reply.outcome with
  | error text =>
    rw [Run.andThen_of_error rfl]
    rfl
  | ok edit =>
    rw [Run.andThen_of_ok rfl]
    cases edit <;> rfl

private theorem resolve_ne_failure_of_known {p : Handle} (hknown : registry.find? name = some p)
    (action : String) (s : Signals) (failure : Failure) :
    (resolve ps r registry name action s).outcome ≠ .ok (.error failure) := by
  rw [resolve_of_known ps r hknown]
  cases ((ps p).edit r action s).outcome <;> simp [Except.map]

theorem calls_resolve_of_known {p : Handle} (hknown : registry.find? name = some p)
    (action : String) (s : Signals) :
    Event.calls (resolve ps r registry name action s).events = [r.call p (some action)] := by
  rw [resolve_of_known ps r hknown]
  rcases ((ps p).edit r action s).outcome with text | _ | edit <;> rfl

private theorem edits_of_unknown (hunknown : registry.find? name = none) (action : String)
    (s : Signals) : (edits ps r registry name action s).outcome = .ok none := by
  unfold edits
  rw [resolve_of_unknown ps r hunknown]
  rfl

theorem edits_of_known {p : Handle} (hknown : registry.find? name = some p) (action : String)
    (s : Signals) :
    (edits ps r registry name action s).outcome = ((ps p).edit r action s).outcome := by
  unfold edits
  rw [resolve_of_known ps r hknown]
  cases houtcome : ((ps p).edit r action s).outcome <;> rfl

private theorem polls_resolve (registry : Registry Handle) (name action : String) (s : Signals) :
    Event.polls (resolve ps r registry name action s).events = [] ∧
    ∀ k, ((resolve ps r registry name action s).signals k).polls = (s k).polls := by
  cases hfind : registry.find? name with
  | none =>
    rw [resolve_of_unknown ps r hfind]
    exact ⟨rfl, fun _ => rfl⟩
  | some p =>
    rw [resolve_of_known ps r hfind]
    refine ⟨?_, fun k => Signals.polls_setAll s k _⟩
    rcases ((ps p).edit r action s).outcome with text | _ | edit <;> rfl

/-- Where a request for an edit goes, in both ways to ask. If the name is unknown, nobody is called,
and the first way fails with it while the second has no edit. Otherwise the provider is called once,
with the request and the action as they are, and its reply is the outcome. -/
def Reaches (registry : Registry Handle) (name action : String) (s : Signals)
    (target : Option Handle) : Prop :=
  let resolved := resolve ps r registry name action s
  let edited := edits ps r registry name action s
  match target with
  | none =>
      (resolved.outcome = .ok (.error (.unknownName name)) ∧ edited.outcome = .ok none) ∧
        Event.calls resolved.events = [] ∧ Event.calls edited.events = []
  | some p =>
      let reply := (ps p).edit r action s
      (resolved.outcome = reply.outcome.map .ok ∧ edited.outcome = reply.outcome) ∧
        Event.calls resolved.events = [r.call p (some action)] ∧
        Event.calls edited.events = [r.call p (some action)]

theorem reaches_find? (registry : Registry Handle) (name action : String) (s : Signals) :
    Reaches ps r registry name action s (registry.find? name) := by
  cases hfind : registry.find? name with
  | none =>
    have hresolve := resolve_of_unknown ps r hfind action s
    have hcalls : Event.calls (resolve ps r registry name action s).events = [] := by
      rw [hresolve]
      rfl
    exact ⟨⟨congrArg Run.outcome hresolve, edits_of_unknown ps r hfind action s⟩, hcalls, hcalls⟩
  | some p =>
    have hcalls := calls_resolve_of_known ps r hfind action s
    have hresolve := congrArg Run.outcome (resolve_of_known ps r hfind action s)
    exact ⟨⟨hresolve, edits_of_known ps r hfind action s⟩, hcalls, hcalls⟩

end Dispatch

namespace Session
open Registration

/-- A request for an edit, after any steps. It fails just if nothing was ever registered under the
name, and then calls nobody. Otherwise it calls once the provider that the history leaves under the
name, with the request and the action as they are, and the answer is that provider's. Both ways to
ask do the same, and neither polls a signal. -/
theorem edit_reaches_holder (ps : Providers) (signals : Signals) (steps : List Step) (h : Handle)
    (r : Request) (name action : String) :
    let s := ((opening ps signals).run steps).2
    let history := (opening ps signals).record (fun _ => []) steps h
    let resolved := Dispatch.resolve s.providers r (s.registries h) name action s.signals
    let edited := Dispatch.edits s.providers r (s.registries h) name action s.signals
    (resolved.outcome = .ok (.error (.unknownName name)) ↔ ∀ e ∈ history, e.name ≠ name) ∧
    (∀ failure, resolved.outcome = .ok (.error failure) → failure = .unknownName name) ∧
    ((∀ e ∈ history, e.name ≠ name) →
      Event.calls resolved.events = [] ∧ resolved.signals = s.signals ∧
      edited.outcome = .ok none) ∧
    ((∃ e ∈ history, e.name = name) → ∃ p,
      holder? history name = some p ∧ (s.registries h).find? name = some p ∧
      Event.calls resolved.events = [r.call p (some action)] ∧
      resolved.outcome = ((s.providers p).edit r action s.signals).outcome.map .ok ∧
      resolved.signals = s.signals.setAll ((s.providers p).edit r action s.signals).sets ∧
      edited.outcome = ((s.providers p).edit r action s.signals).outcome) ∧
    edited.events = resolved.events ∧ edited.signals = resolved.signals ∧
    Event.polls resolved.events = [] ∧
    ∀ k, (resolved.signals k).polls = (s.signals k).polls := by
  intro s history resolved edited
  have hfollows : (s.registries h).Follows history := follows_opening ps signals steps h
  have hpolls := Dispatch.polls_resolve s.providers r (s.registries h) name action s.signals
  cases hfind : (s.registries h).find? name with
  | none =>
    have hnever : ∀ e ∈ history, e.name ≠ name := (hfollows.find?_eq_none_iff name).mp hfind
    have hresolved : resolved = ⟨.ok (.error (.unknownName name)), s.signals,
        [.notice (.unknown name)]⟩ := Dispatch.resolve_of_unknown s.providers r hfind action s.signals
    refine ⟨?_, ?_, ?_, ?_, rfl, rfl, hpolls.1, hpolls.2⟩
    · rw [hresolved]
      exact ⟨fun _ => hnever, fun _ => rfl⟩
    · rw [hresolved]
      intro failure hfailure
      cases hfailure
      rfl
    · intro _
      rw [hresolved]
      exact ⟨rfl, rfl, Dispatch.edits_of_unknown s.providers r hfind action s.signals⟩
    · rintro ⟨e, he, hname⟩
      exact absurd hname (hnever e he)
  | some p =>
    have hresolved := Dispatch.resolve_of_known s.providers r hfind action s.signals
    have hfound : holder? history name = some p := by rw [← hfollows.find?_eq, hfind]
    have hsome : ¬ ∀ e ∈ history, e.name ≠ name := by
      intro hnever
      rw [(holder?_eq_none_iff history name).mpr hnever] at hfound
      cases hfound
    have hfailure (failure : Failure) : resolved.outcome ≠ .ok (.error failure) :=
      Dispatch.resolve_ne_failure_of_known s.providers r hfind action s.signals failure
    refine ⟨?_, ?_, ?_, ?_, rfl, rfl, hpolls.1, hpolls.2⟩
    · exact ⟨fun hfails => absurd hfails (hfailure _), fun hnever => absurd hnever hsome⟩
    · intro failure hfails
      exact absurd hfails (hfailure failure)
    · intro hnever
      exact absurd hnever hsome
    · intro _
      exact ⟨p, hfound, rfl,
        Dispatch.calls_resolve_of_known s.providers r hfind action s.signals,
        congrArg Run.outcome hresolved, congrArg Run.signals hresolved,
        Dispatch.edits_of_known s.providers r hfind action s.signals⟩

end Session
end CodeActions
