import CodeActions.Proofs.Discovery.Finality
/-!
# Breakdowns

A provider that breaks down takes the request with it, and nothing else: the registries and the
providers are as they were, and the session goes on as if the polls had been made and the signals
set that were, and nothing more had happened (`breakdown_leaves_no_trace`).
-/
namespace CodeActions

private theorem Signal.set_polled (value : Bool) (s : Signal) :
    s.polled.set value = (s.set value).polled := by
  cases s <;> rfl

namespace Signals

def pollAll (s : Signals) : List Handle → Signals
  | [] => s
  | h :: rest => (s.update h Signal.polled).pollAll rest

private theorem pollAll_append (s : Signals) (hs ks : List Handle) :
    s.pollAll (hs ++ ks) = (s.pollAll hs).pollAll ks := by
  induction hs generalizing s with
  | nil => rfl
  | cons h hs ih => exact ih _

private theorem setAll_append (s : Signals) (sets more : List (Handle × Bool)) :
    s.setAll (sets ++ more) = (s.setAll sets).setAll more := by
  induction sets generalizing s with
  | nil => rfl
  | cons head sets ih => exact ih _

private theorem update_set_update_polled (s : Signals) (h k : Handle) (value : Bool) :
    (s.update h (Signal.set value)).update k Signal.polled =
      (s.update k Signal.polled).update h (Signal.set value) := by
  funext j
  by_cases hj : j = h <;> by_cases hk : j = k
  · subst hj hk
    simp [Signal.set_polled]
  · subst hj
    simp [update_of_ne _ _ hk]
  · subst hk
    simp [update_of_ne _ _ hj]
  · simp [update_of_ne _ _ hj, update_of_ne _ _ hk]

private theorem pollAll_setAll (s : Signals) (sets : List (Handle × Bool)) (hs : List Handle) :
    (s.setAll sets).pollAll hs = (s.pollAll hs).setAll sets := by
  have hone (s : Signals) (k : Handle) :
      (s.setAll sets).update k Signal.polled = (s.update k Signal.polled).setAll sets := by
    induction sets generalizing s with
    | nil => rfl
    | cons head sets ih =>
      obtain ⟨h, value⟩ := head
      rw [setAll, ih, update_set_update_polled, setAll]
  induction hs generalizing s with
  | nil => rfl
  | cons k hs ih => rw [pollAll, hone, ih, pollAll]

end Signals

namespace Visit
variable (ps : Providers) (r : Request) (v : Visit)

private theorem fault?_eq_some_iff {text : String} :
    v.fault? ps r = some text ↔ v.isSkipped r = false ∧ (v.reply ps r).outcome = .error text := by
  unfold fault?
  cases v.isSkipped r with
  | true => simp
  | false => cases (v.reply ps r).outcome <;> simp

private theorem after_eq : v.after ps r = (v.signals.pollAll r.signal.toList).setAll (v.sets ps r) := by
  have hpolled : v.polled r = v.signals.pollAll r.signal.toList := by
    unfold polled
    cases r.signal <;> rfl
  unfold after sets
  rw [hpolled]
  cases v.isSkipped r <;> rfl

end Visit

namespace Dispatch
variable (ps : Providers) (r : Request)

private theorem visits_eq_of_fault {hs : List Handle} {s : Signals} {v : Visit} {text : String}
    (hv : v ∈ visits ps r hs s) (hfault : v.fault? ps r = some text) :
    ∃ before, visits ps r hs s = before ++ [v] := by
  induction hs generalizing s with
  | nil => cases hv
  | cons h hs ih =>
    cases hhead : Visit.fault? ps r ⟨h, s⟩ with
    | some _ =>
      rw [visits_cons_of_fault ps r hhead] at hv ⊢
      exact ⟨[], by rw [List.mem_singleton.mp hv, List.nil_append]⟩
    | none =>
      rw [visits_cons_of_calm ps r hhead] at hv ⊢
      rcases List.mem_cons.mp hv with rfl | hrest
      · rw [hhead] at hfault
        cases hfault
      · obtain ⟨before, hbefore⟩ := ih hrest
        exact ⟨⟨h, s⟩ :: before, by rw [hbefore, List.cons_append]⟩

private theorem findSome?_fault?_iff {hs : List Handle} {s : Signals} {text : String} :
    (visits ps r hs s).findSome? (Visit.fault? ps r) = some text ↔
      ∃ v ∈ visits ps r hs s, v.fault? ps r = some text := by
  constructor
  · exact List.exists_of_findSome?_eq_some
  · rintro ⟨v, hv, hfault⟩
    obtain ⟨before, hvisits⟩ := visits_eq_of_fault ps r hv hfault
    have hcalm : before.findSome? (Visit.fault? ps r) = none :=
      List.findSome?_eq_none_iff.mpr (fault?_of_mem_before ps r hvisits)
    rw [hvisits, List.findSome?_append, hcalm]
    simp [hfault]

private theorem settle_eq {vs : List Visit} {s t : Signals} (hthread : Threaded ps r s vs t) :
    t = (s.pollAll (vs.flatMap fun _ => r.signal.toList)).setAll
      (vs.flatMap (Visit.sets ps r)) := by
  induction hthread with
  | nil s => rfl
  | cons rest ih =>
    rw [ih, Visit.after_eq, Signals.pollAll_setAll, ← Signals.pollAll_append,
      ← Signals.setAll_append]
    rfl

end Dispatch

namespace Session

def touched (s : Session) (polls : List Handle) (sets : List (Handle × Bool)) : Session :=
  { s with signals := (s.signals.pollAll polls).setAll sets }

private theorem discover_step_eq_touched (s : Session) (h : Handle) (r : Request) :
    let vs := Dispatch.visits s.providers r (s.registries h).toList s.signals
    let pass := s.step (.discover h r)
    pass.2 = s.touched ((Event.polls pass.1.events).map Prod.fst)
      (vs.flatMap (Visit.sets s.providers r)) := by
  intro vs pass
  have hpolls : (Event.polls pass.1.events).map Prod.fst = vs.flatMap fun _ => r.signal.toList := by
    have hevents : Event.polls pass.1.events = vs.flatMap fun v =>
        r.signal.toList.map fun k => (k, (v.signals k).answer) :=
      Dispatch.polls_discover s.providers r (s.registries h) s.signals
    rw [hevents, List.map_flatMap]
    simp only [List.map_map]
    exact congrArg vs.flatMap (funext fun _ => List.map_id _)
  have hsignals : (Dispatch.discover s.providers r (s.registries h) s.signals).signals =
      (s.signals.pollAll (vs.flatMap fun _ => r.signal.toList)).setAll
        (vs.flatMap (Visit.sets s.providers r)) := by
    rw [Dispatch.discover_eq]
    exact Dispatch.settle_eq s.providers r
      (Dispatch.visits_threaded s.providers r (s.registries h).toList s.signals)
  rw [hpolls, touched, ← hsignals]
  rfl

private theorem run_cons_eq {s t : Session} {step : Step} (hstep : (s.step step).2 = t)
    (more : List Step) :
    s.run (step :: more) = ((s.step step).1 :: (t.run more).1, (t.run more).2) := by
  subst hstep
  rfl

private theorem discover_brokeDown_iff (s : Session) (h : Handle) (r : Request) (text : String) :
    (s.step (.discover h r)).1.answer = .brokeDown text ↔
      ∃ v ∈ Dispatch.visits s.providers r (s.registries h).toList s.signals,
        v.isSkipped r = false ∧ (v.reply s.providers r).outcome = .error text := by
  simp only [← Visit.fault?_eq_some_iff]
  rw [← Dispatch.findSome?_fault?_iff, answer_discover]
  split
  case h_1 hnone => simp [hnone]
  case h_2 other hsome => simp [hsome]

private theorem events_of_brokeDown {s : Session} {h : Handle} {r : Request} {text : String}
    (hanswer : (s.step (.discover h r)).1.answer = .brokeDown text) :
    (s.step (.discover h r)).1.events =
      (Dispatch.visits s.providers r (s.registries h).toList s.signals).flatMap
        (Visit.events s.providers r) := by
  simp only [discover_brokeDown_iff, ← Visit.fault?_eq_some_iff] at hanswer
  rw [← Dispatch.findSome?_fault?_iff] at hanswer
  change (Dispatch.discover s.providers r (s.registries h) s.signals).events = _
  rw [Dispatch.discover_eq, hanswer, List.append_nil]

private theorem edits_step_of_brokeDown {s : Session} {h p : Handle} {name action text : String}
    (r : Request) (hknown : (s.registries h).find? name = some p)
    (hreply : ((s.providers p).edit r action s.signals).outcome = .error text) :
    ∀ step ∈ [Step.edits h r name action, .resolve h r name action],
      s.step step = (⟨.brokeDown text,
          [.notice (.requested action name), .call (r.call p (some action))]⟩,
        s.touched [] ((s.providers p).edit r action s.signals).sets) := by
  have hresolve := Dispatch.resolve_of_known s.providers r hknown action s.signals
  simp only [hreply] at hresolve
  intro step hstep
  simp only [List.mem_cons, List.not_mem_nil, or_false] at hstep
  rcases hstep with rfl | rfl
  · simp only [Session.step, Dispatch.edits, hresolve]
    rfl
  · simp only [Session.step, hresolve]
    rfl

/-- A provider that breaks down leaves no trace but signals that were polled or set. A pass breaks
down with the text of a provider that was asked. That one is the last in the order of the registry
to be visited; those before it and itself are asked if the signal lets them and else skipped, with
a poll for each; and the number of offers is not told. A request for an edit is told, goes to the
provider and breaks down with its text. Either way the session is as it was, except for the polls
that were made and the signals that were set by those who were asked, and goes on accordingly. -/
theorem breakdown_leaves_no_trace (s : Session) (h : Handle) (r : Request) :
    let vs := Dispatch.visits s.providers r (s.registries h).toList s.signals
    let pass := s.step (.discover h r)
    (∀ text, pass.1.answer = .brokeDown text ↔
      ∃ v ∈ vs, v.isSkipped r = false ∧ (v.reply s.providers r).outcome = .error text) ∧
    (∀ text, pass.1.answer = .brokeDown text →
      (∃ before v later, vs = before ++ [v] ∧
        (s.registries h).toList = before.map Visit.provider ++ v.provider :: later ∧
        v.isSkipped r = false ∧ (v.reply s.providers r).outcome = .error text) ∧
      (Event.calls pass.1.events =
        (vs.filter fun v => !v.isSkipped r).map fun v => r.call v.provider none) ∧
      (Event.notices pass.1.events =
        (vs.filter fun v => v.isSkipped r).map fun v => .skipped (s.providers v.provider).name) ∧
      (Event.polls pass.1.events = vs.flatMap fun v =>
        r.signal.toList.map fun k => (k, (v.signals k).answer)) ∧
      let quiet := s.touched ((Event.polls pass.1.events).map Prod.fst)
        (vs.flatMap (Visit.sets s.providers r))
      pass.2 = quiet ∧ ∀ more, s.run (.discover h r :: more) =
        (pass.1 :: (quiet.run more).1, (quiet.run more).2)) ∧
    ∀ name action p text, (s.registries h).find? name = some p →
      let reply := (s.providers p).edit r action s.signals
      reply.outcome = .error text →
        let quiet := s.touched [] reply.sets
        ∀ step ∈ [Step.edits h r name action, .resolve h r name action],
          s.step step = (⟨.brokeDown text,
            [.notice (.requested action name), .call (r.call p (some action))]⟩, quiet) ∧
          ∀ more, s.run (step :: more) =
            ((s.step step).1 :: (quiet.run more).1, (quiet.run more).2) := by
  intro vs pass
  have hafter := discover_step_eq_touched s h r
  refine ⟨discover_brokeDown_iff s h r, fun text hanswer => ⟨?_, ?_, ?_, ?_, hafter, ?_⟩, ?_⟩
  · obtain ⟨v, hv, hfault⟩ := (discover_brokeDown_iff s h r text).mp hanswer
    obtain ⟨before, hvisits⟩ := Dispatch.visits_eq_of_fault s.providers r hv
      ((v.fault?_eq_some_iff s.providers r).mpr hfault)
    obtain ⟨later, hlater⟩ :=
      Dispatch.visits_providers_isPrefix s.providers r (s.registries h).toList s.signals
    rw [hvisits] at hlater
    exact ⟨before, v, later, hvisits, by simpa using hlater.symm, hfault⟩
  · exact Dispatch.calls_discover s.providers r (s.registries h) s.signals
  · rw [events_of_brokeDown hanswer, Dispatch.notices_visits]
  · exact Dispatch.polls_discover s.providers r (s.registries h) s.signals
  · exact run_cons_eq hafter
  · intro name action p text hknown reply hreply quiet step hstep
    have hdone := edits_step_of_brokeDown r hknown hreply step hstep
    exact ⟨hdone, run_cons_eq (congrArg Prod.snd hdone)⟩

/-- `p` breaks down whatever it is asked, and sets the signal `stop` or clears it before that. -/
def faulty : Providers := fun h =>
  if h = "p" then
    ({ breakOnDiscover := some "asked", onDiscover := [("stop", true)],
       breakOnEdit := some "edited", onEdit := [("stop", false)] } : Script).provider "p" "P"
  else ({ offers := some [⟨h, h, none, []⟩] } : Script).provider h h

theorem breakdown_leaves_no_trace_of_faulty :
    let s := ((opening faulty fun _ => .script [true, false] 0).run
      [.extend "a" ["q", "p", "t"]]).2
    let r : Request := { file := ⟨"a.ts", ""⟩, signal := some "turn" }
    let pass := s.step (.discover "a" r)
    pass.1.answer = .brokeDown "asked" ∧
    Event.calls pass.1.events = [r.call "p" none] ∧
    Event.notices pass.1.events = [.skipped "q"] ∧
    pass.2 = s.touched ["turn", "turn"] [("stop", true)] ∧
    s.step (.edits "a" r "p" "fix") = (⟨.brokeDown "edited",
      [.notice (.requested "fix" "p"), .call (r.call "p" (some "fix"))]⟩,
      s.touched [] [("stop", false)]) := by
  intro s r pass
  have hanswer : pass.1.answer = .brokeDown "asked" := rfl
  obtain ⟨-, hpass, hedit⟩ := breakdown_leaves_no_trace s "a" r
  obtain ⟨-, hcalls, hnotices, -, hafter, -⟩ := hpass "asked" hanswer
  refine ⟨hanswer, hcalls, hnotices, hafter, ?_⟩
  exact (hedit "p" "fix" "p" "edited" rfl rfl _ List.mem_cons_self).1

end Session
end CodeActions
