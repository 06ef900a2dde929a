import CodeActions.Proofs.Discovery.Visit
import CodeActions.Provider.Script
/-!
# Passes

What a discovery pass asks, skips, polls and tells, when no provider breaks down. Everything is
read off the visits: their events stand one after the other, and a single notice closes the pass.
-/
namespace CodeActions

namespace Event

private theorem calls_append (es fs : List Event) : calls (es ++ fs) = calls es ++ calls fs :=
  List.filterMap_append

private theorem notices_append (es fs : List Event) : notices (es ++ fs) = notices es ++ notices fs :=
  List.filterMap_append

private theorem skips_append (es fs : List Event) : skips (es ++ fs) = skips es ++ skips fs := by
  rw [skips, notices_append, List.filterMap_append]
  rfl

private theorem polls_append (es fs : List Event) : polls (es ++ fs) = polls es ++ polls fs :=
  List.filterMap_append

end Event

namespace Dispatch
variable (ps : Providers) (r : Request)

private theorem flatMap_visits_if {α : Type} (p : Visit → Bool) (f : Visit → α) (vs : List Visit) :
    (vs.flatMap fun v => if p v then [f v] else []) = (vs.filter p).map f := by
  induction vs with
  | nil => rfl
  | cons v vs ih =>
    rw [List.flatMap_cons, ih]
    cases hv : p v <;> simp [hv]

private theorem calls_visits (vs : List Visit) :
    Event.calls (vs.flatMap (Visit.events ps r)) =
      (vs.filter fun v => !v.isSkipped r).map fun v => r.call v.provider none := by
  rw [Event.calls, List.filterMap_flatMap, ← flatMap_visits_if]
  exact congrArg vs.flatMap (funext (Visit.calls_events ps r))

theorem notices_visits (vs : List Visit) :
    Event.notices (vs.flatMap (Visit.events ps r)) =
      (vs.filter fun v => v.isSkipped r).map fun v => .skipped (ps v.provider).name := by
  rw [Event.notices, List.filterMap_flatMap, ← flatMap_visits_if]
  exact congrArg vs.flatMap (funext (Visit.notices_events ps r))

private theorem skips_visits (vs : List Visit) :
    Event.skips (vs.flatMap (Visit.events ps r)) =
      (vs.filter fun v => v.isSkipped r).map fun v => (ps v.provider).name := by
  rw [Event.skips, notices_visits, List.filterMap_map]
  exact congrFun (List.filterMap_eq_map (f := fun v : Visit => (ps v.provider).name)) _

private theorem polls_visits (vs : List Visit) :
    Event.polls (vs.flatMap (Visit.events ps r)) =
      vs.flatMap fun v => r.signal.toList.map fun k => (k, (v.signals k).answer) := by
  rw [Event.polls, List.filterMap_flatMap]
  exact congrArg vs.flatMap (funext (Visit.polls_events ps r))

/-- The last notice of a pass, if it comes to that, is neither a call nor a poll. -/
theorem calls_discover (registry : Registry Handle) (s : Signals) :
    Event.calls (discover ps r registry s).events =
      ((visits ps r registry.toList s).filter fun v => !v.isSkipped r).map
        fun v => r.call v.provider none := by
  rw [discover_eq, Event.calls_append, calls_visits]
  cases (visits ps r registry.toList s).findSome? (Visit.fault? ps r) <;> exact List.append_nil _

theorem polls_discover (registry : Registry Handle) (s : Signals) :
    Event.polls (discover ps r registry s).events =
      (visits ps r registry.toList s).flatMap fun v =>
        r.signal.toList.map fun k => (k, (v.signals k).answer) := by
  rw [discover_eq, Event.polls_append, polls_visits]
  cases (visits ps r registry.toList s).findSome? (Visit.fault? ps r) <;> exact List.append_nil _

theorem skips_discover (registry : Registry Handle) (s : Signals) :
    Event.skips (discover ps r registry s).events =
      ((visits ps r registry.toList s).filter fun v => v.isSkipped r).map
        fun v => (ps v.provider).name := by
  rw [discover_eq, Event.skips_append, skips_visits]
  cases (visits ps r registry.toList s).findSome? (Visit.fault? ps r) <;> exact List.append_nil _

private theorem length_asked_add_skipped (vs : List Visit) :
    (vs.filter fun v => !v.isSkipped r).length + (vs.filter fun v => v.isSkipped r).length =
      vs.length := by
  induction vs with
  | nil => rfl
  | cons v vs ih =>
    cases hskip : v.isSkipped r <;> simp [hskip] <;> omega

theorem discover_eq_of_calm {registry : Registry Handle} {s : Signals}
    (hcalm : ∀ v ∈ visits ps r registry.toList s, v.fault? ps r = none) :
    let vs := visits ps r registry.toList s
    let offers := vs.flatMap (Visit.offers ps r)
    discover ps r registry s =
      ⟨.ok offers, settle ps r s vs,
        vs.flatMap (Visit.events ps r) ++ [.notice (.found offers.length r.file.name)]⟩ := by
  intro vs offers
  have hnone : vs.findSome? (Visit.fault? ps r) = none := List.findSome?_eq_none_iff.mpr hcalm
  rw [discover_eq]
  simp only [verdict]
  rw [hnone]

/-- The law of a discovery pass. Every entry of the registry is visited once, in the order of
registration. The signal is polled at the start of each turn, as the turns before have left it. A
provider is asked if the poll says to go on, and is skipped with a notice if it does not. The
offers of those asked are the result, and the last notice tells their number. -/
theorem discover_visits_every_entry (registry : Registry Handle) (s : Signals)
    (hcalm : ∀ v ∈ visits ps r registry.toList s, v.fault? ps r = none) :
    let vs := visits ps r registry.toList s
    let offers := vs.flatMap (Visit.offers ps r)
    let run := discover ps r registry s
    vs.map Visit.provider = registry.toList ∧
    Threaded ps r s vs run.signals ∧
    run.outcome = .ok offers ∧
    run.events = vs.flatMap (Visit.events ps r) ++ [.notice (.found offers.length r.file.name)] ∧
    (Event.polls run.events = vs.flatMap fun v =>
      r.signal.toList.map fun k => (k, (v.signals k).answer)) ∧
    (Event.calls run.events =
      (vs.filter fun v => !v.isSkipped r).map fun v => r.call v.provider none) ∧
    (Event.notices run.events =
      ((vs.filter fun v => v.isSkipped r).map fun v => .skipped (ps v.provider).name) ++
        [.found offers.length r.file.name]) ∧
    (Event.calls run.events).length + (Event.skips run.events).length = registry.size := by
  intro vs offers run
  have hrun : run = ⟨.ok offers, settle ps r s vs,
      vs.flatMap (Visit.events ps r) ++ [.notice (.found offers.length r.file.name)]⟩ :=
    discover_eq_of_calm ps r hcalm
  have hproviders : vs.map Visit.provider = registry.toList := visits_providers ps r hcalm
  have hcalls : Event.calls run.events =
      (vs.filter fun v => !v.isSkipped r).map fun v => r.call v.provider none :=
    calls_discover ps r registry s
  have hnotices : Event.notices run.events =
      ((vs.filter fun v => v.isSkipped r).map fun v => .skipped (ps v.provider).name) ++
        [.found offers.length r.file.name] := by
    rw [hrun, Event.notices_append, notices_visits]
    rfl
  refine ⟨hproviders, ?_, ?_, ?_, polls_discover ps r registry s, hcalls, hnotices, ?_⟩
  · rw [hrun]
    exact visits_threaded ps r registry.toList s
  · rw [hrun]
  · rw [hrun]
  · have hskips : Event.skips run.events =
        (vs.filter fun v => v.isSkipped r).map fun v => (ps v.provider).name := by
      rw [hrun, Event.skips_append, skips_visits]
      exact List.append_nil _
    have hlength : vs.length = registry.size := by
      have hsame := congrArg List.length hproviders
      simpa [Registry.toList, Registry.size] using hsame
    rw [hcalls, hskips, List.length_map, List.length_map, length_asked_add_skipped, hlength]

/-- `p` offers something and sets the signal `stop`; anyone else breaks down when asked. -/
def stoppers : Providers := fun h =>
  if h = "p" then
    ({ offers := some [⟨"p", "P", none, []⟩], onDiscover := [("stop", true)] } : Script).provider
      "p" "P"
  else ({ breakOnDiscover := some "asked" } : Script).provider h h

theorem discover_visits_stoppers :
    let r : Request := { file := ⟨"a.ts", ""⟩, start := 3, signal := some "stop" }
    let registry : Registry Handle := ⟨[("p", "p"), ("q", "q")]⟩
    let s : Signals := fun _ => .latch false
    let run := discover stoppers r registry s
    (∀ v ∈ visits stoppers r registry.toList s, v.fault? stoppers r = none) ∧
    run.outcome = .ok [⟨"p", "P", none, []⟩] ∧
    run.events = [.poll "stop" false, .call ⟨"p", none, "a.ts", 3, none⟩, .poll "stop" true,
      .notice (.skipped "q"), .notice (.found 1 "a.ts")] := by
  intro r registry s run
  have hcalm : ∀ v ∈ visits stoppers r registry.toList s, v.fault? stoppers r = none := by
    decide
  have hlaw := discover_visits_every_entry stoppers r registry s hcalm
  exact ⟨hcalm, hlaw.2.2.1, hlaw.2.2.2.1⟩

end Dispatch
end CodeActions
