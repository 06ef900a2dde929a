import CodeActions.Proofs.Discovery.Cancellation
import CodeActions.Proofs.Routing
/-!
# Cancellation is final

A latch is set from the moment the host or a provider sets it, whatever else comes of that call
(`signals_run`). From then on no pass with that latch asks anybody, in any registry and for the rest
of the session, and requests for edits go on as before (`cancellation_is_final`).
-/
namespace CodeActions

private theorem Signals.setAll_eq_latch {s : Signals} {k : Handle} {isSet : Bool}
    (hlatch : s k = .latch isSet) (sets : List (Handle × Bool)) :
    s.setAll sets k = .latch (isSet || decide ((k, true) ∈ sets)) := by
  induction sets generalizing s isSet with
  | nil => simp [setAll, hlatch]
  | cons head sets ih =>
    obtain ⟨h, value⟩ := head
    by_cases hk : k = h
    · subst hk
      have hset : s.update k (Signal.set value) k = .latch (isSet || value) := by
        rw [update_same, hlatch]
        rfl
      rw [setAll, ih hset]
      cases value <;> simp
    · have hsame : s.update h (Signal.set value) k = .latch isSet := by
        rw [update_of_ne s _ hk, hlatch]
      rw [setAll, ih hsame]
      simp [hk]

/-- The signals that the provider sets in its turn, whether it answers or breaks down. -/
def Visit.sets (ps : Providers) (r : Request) (v : Visit) : List (Handle × Bool) :=
  if v.isSkipped r then [] else (v.reply ps r).sets

private theorem Visit.after_latch (ps : Providers) (r : Request) {v : Visit} {k : Handle} {isSet : Bool}
    (hlatch : v.signals k = .latch isSet) :
    v.after ps r k = .latch (isSet || decide ((k, true) ∈ v.sets ps r)) := by
  have hpolled : v.polled r k = .latch isSet := by
    unfold polled
    cases hsignal : r.signal with
    | none => exact hlatch
    | some h =>
      by_cases hk : k = h
      · subst hk
        simp [hlatch]
      · simp only [Signals.update_of_ne v.signals _ hk, hlatch]
  unfold after sets
  cases v.isSkipped r with
  | true => simp [hpolled]
  | false =>
    rw [if_neg Bool.false_ne_true, if_neg Bool.false_ne_true, Signals.setAll_eq_latch hpolled]

namespace Dispatch
variable (ps : Providers) (r : Request)

private theorem settle_latch {vs : List Visit} {s t : Signals} (hthread : Threaded ps r s vs t)
    {k : Handle} {isSet : Bool} (hlatch : s k = .latch isSet) :
    t k = .latch (isSet || decide ((k, true) ∈ vs.flatMap (Visit.sets ps r))) := by
  induction hthread generalizing isSet with
  | nil s => simp [hlatch]
  | cons rest ih =>
    rw [ih (Visit.after_latch ps r hlatch), List.flatMap_cons]
    simp [Bool.or_assoc]

private theorem threaded_before {before later : List Visit} {v : Visit} {s t : Signals}
    (hthread : Threaded ps r s (before ++ v :: later) t) :
    Threaded ps r s before v.signals := by
  induction before generalizing s with
  | nil =>
    cases hthread
    exact .nil _
  | cons w before ih =>
    cases hthread with
    | cons rest => exact .cons (ih rest)

private theorem signals_latch {before later : List Visit} {v : Visit} {s t : Signals}
    (hthread : Threaded ps r s (before ++ v :: later) t) {k : Handle} {isSet : Bool}
    (hlatch : s k = .latch isSet) :
    v.signals k = .latch (isSet || decide ((k, true) ∈ before.flatMap (Visit.sets ps r))) :=
  settle_latch ps r (threaded_before ps r hthread) hlatch

private theorem discover_latch {registry : Registry Handle} {s : Signals} {k : Handle} {isSet : Bool}
    (hlatch : s k = .latch isSet) :
    (discover ps r registry s).signals k =
      .latch (isSet || decide ((k, true) ∈
        (visits ps r registry.toList s).flatMap (Visit.sets ps r))) := by
  have hthread := visits_threaded ps r registry.toList s
  rw [discover_eq]
  exact settle_latch ps r hthread hlatch

/-- The settings in a request for an edit: those of the provider that is asked. -/
def editSets (registry : Registry Handle) (name action : String) (s : Signals) :
    List (Handle × Bool) :=
  match registry.find? name with
  | none => []
  | some p => ((ps p).edit r action s).sets

private theorem resolve_latch {registry : Registry Handle} {name action : String} {s : Signals}
    {k : Handle} {isSet : Bool} (hlatch : s k = .latch isSet) :
    (resolve ps r registry name action s).signals k =
      .latch (isSet || decide ((k, true) ∈ editSets ps r registry name action s)) := by
  unfold editSets
  cases hfind : registry.find? name with
  | none =>
    rw [resolve_of_unknown ps r hfind]
    simp [hlatch]
  | some p =>
    rw [resolve_of_known ps r hfind]
    exact Signals.setAll_eq_latch hlatch _

section
variable {k : Handle} (hk : r.signal = some k)
include hk

private theorem discover_of_set {s : Signals} (hset : s k = .latch true) (registry : Registry Handle) :
    discover ps r registry s =
      ⟨.ok [], s, (registry.toList.flatMap fun p =>
        [.poll k true, .notice (.skipped (ps p).name)]) ++ [.notice (.found 0 r.file.name)]⟩ := by
  have hpolled : s.update k Signal.polled = s := by
    funext h
    by_cases hh : h = k
    · rw [hh, Signals.update_same, hset, Signal.polled_latch]
    · rw [Signals.update_of_ne s _ hh]
  have hturns (hs : List Handle) : turns ps r hs s =
      ⟨.ok [], s, hs.flatMap fun p => [.poll k true, .notice (.skipped (ps p).name)]⟩ := by
    induction hs with
    | nil => rfl
    | cons p hs ih =>
      have hpoll : r.poll s = ⟨.ok true, s, [.poll k true]⟩ := by
        simp only [Request.poll, hk, hset, Signal.answer, hpolled]
      have hturn : turn ps r p s =
          ⟨.ok [], s, [.poll k true, .notice (.skipped (ps p).name)]⟩ := by
        rw [turn, hpoll, Run.andThen_of_ok rfl]
        rfl
      rw [turns, hturn, Run.andThen_of_ok rfl, ih]
      rfl
  rw [discover, hturns, Run.andThen_of_ok rfl]
  rfl

/-- Whoever sets the latch of a pass is the last to be asked, and everyone before was asked. -/
private theorem isSkipped_of_sets {s t : Signals} {before later : List Visit} {v : Visit}
    (hthread : Threaded ps r s (before ++ v :: later) t) {isSet : Bool}
    (hlatch : s k = .latch isSet) (hsets : (k, true) ∈ v.sets ps r) :
    (∀ w ∈ before, w.isSkipped r = false) ∧ v.isSkipped r = false ∧
      ∀ w ∈ later, w.isSkipped r = true := by
  have hasked : v.isSkipped r = false := by
    cases hskip : v.isSkipped r with
    | false => rfl
    | true => simp [Visit.sets, hskip] at hsets
  have hunset : (isSet || decide ((k, true) ∈ before.flatMap (Visit.sets ps r))) = false := by
    rw [isSkipped_eq_answer r hk, signals_latch ps r hthread hlatch] at hasked
    exact hasked
  refine ⟨fun w hw => ?_, hasked, fun w hw => ?_⟩
  · obtain ⟨first, last, rfl⟩ := List.append_of_mem hw
    rw [List.append_assoc] at hthread
    rw [isSkipped_eq_answer r hk, signals_latch ps r hthread hlatch]
    simp only [List.flatMap_append, List.mem_append, Bool.or_eq_false_iff,
      decide_eq_false_iff_not, not_or] at hunset
    simp [Signal.answer, hunset.1, hunset.2.1]
  · obtain ⟨first, last, rfl⟩ := List.append_of_mem hw
    have hsplit : before ++ v :: (first ++ w :: last) = (before ++ v :: first) ++ w :: last := by
      simp
    rw [hsplit] at hthread
    rw [isSkipped_eq_answer r hk, signals_latch ps r hthread hlatch]
    simp [Signal.answer, hsets]

end

theorem fault?_of_mem_before {hs : List Handle} {s : Signals} {before later : List Visit}
    {v : Visit} (hvisits : visits ps r hs s = before ++ v :: later) :
    ∀ w ∈ before, w.fault? ps r = none := by
  induction hs generalizing s before with
  | nil => simp [visits] at hvisits
  | cons h hs ih =>
    cases before with
    | nil => simp
    | cons w before =>
      cases hfault : Visit.fault? ps r ⟨h, s⟩ with
      | some text => simp [visits_cons_of_fault ps r hfault] at hvisits
      | none =>
        rw [visits_cons_of_calm ps r hfault] at hvisits
        obtain ⟨rfl, hrest⟩ := List.cons.inj hvisits
        simpa [hfault] using ih hrest

private theorem outcome_of_sets {k : Handle} (hk : r.signal = some k) {registry : Registry Handle}
    {s : Signals} {isSet : Bool} (hlatch : s k = .latch isSet) {before later : List Visit}
    {v : Visit} (hvisits : visits ps r registry.toList s = before ++ v :: later)
    (hsets : (k, true) ∈ v.sets ps r) :
    Event.calls (discover ps r registry s).events =
      (before ++ [v]).map (fun w => r.call w.provider none) ∧
    (discover ps r registry s).outcome = match v.fault? ps r with
      | none => .ok ((before ++ [v]).flatMap (Visit.offers ps r))
      | some text => .error text := by
  have hthread := visits_threaded ps r registry.toList s
  rw [hvisits] at hthread
  obtain ⟨hbefore, hv, hlater⟩ := isSkipped_of_sets ps r hk hthread hlatch hsets
  constructor
  · rw [calls_discover, hvisits]
    have hasked : before.filter (fun w => !w.isSkipped r) = before :=
      List.filter_eq_self.mpr fun w hw => by simp [hbefore w hw]
    have hnone : later.filter (fun w => !w.isSkipped r) = [] :=
      List.filter_eq_nil_iff.mpr fun w hw => by simp [hlater w hw]
    simp [hasked, hnone, hv]
  · have hcalm : before.findSome? (Visit.fault? ps r) = none :=
      List.findSome?_eq_none_iff.mpr (fault?_of_mem_before ps r hvisits)
    have hend : later.findSome? (Visit.fault? ps r) = none :=
      List.findSome?_eq_none_iff.mpr fun w hw => by simp [Visit.fault?, hlater w hw]
    have hoffers : later.flatMap (Visit.offers ps r) = [] :=
      List.flatMap_eq_nil_iff.mpr fun w hw => by simp [Visit.offers, hlater w hw]
    rw [discover_eq, hvisits]
    simp only [verdict, List.findSome?_append, hcalm, Option.none_or, List.findSome?_cons,
      hend, List.flatMap_append, List.flatMap_cons, hoffers]
    cases v.fault? ps r <;> simp

end Dispatch

namespace Session

/-- The settings of signals in a step, by the host or by the providers that are asked. -/
def settings (s : Session) : Step → List (Handle × Bool)
  | .set h value => [(h, value)]
  | .discover h r =>
      (Dispatch.visits s.providers r (s.registries h).toList s.signals).flatMap
        (Visit.sets s.providers r)
  | .edits h r name action | .resolve h r name action =>
      Dispatch.editSets s.providers r (s.registries h) name action s.signals
  | _ => []

def allSettings (s : Session) : List Step → List (Handle × Bool)
  | [] => []
  | step :: steps => s.settings step ++ (s.step step).2.allSettings steps

private theorem signals_step {s : Session} {k : Handle} {isSet : Bool}
    (hlatch : s.signals k = .latch isSet) (step : Step) :
    (s.step step).2.signals k = .latch (isSet || decide ((k, true) ∈ s.settings step)) := by
  cases step with
  | set h value => exact Signals.setAll_eq_latch hlatch [(h, value)]
  | discover h r => exact Dispatch.discover_latch s.providers r hlatch
  | edits h r name action => exact Dispatch.resolve_latch s.providers r hlatch
  | resolve h r name action => exact Dispatch.resolve_latch s.providers r hlatch
  | tryRegister h p =>
    by_cases htaken : (s.providers p).name ∈ (s.registries h).names
    · simp [step_tryRegister_of_taken htaken, settings, hlatch]
    · simp [step_tryRegister_of_free htaken, settings, withRegistry, hlatch]
  | new | register | extend | collect | clone | rename | redescribe | polls | query =>
    simp [step, keep, withRegistry, settings, hlatch]

/-- A latch is set just if it was so at the start or someone has set it on the way. -/
theorem signals_run {s : Session} {k : Handle} {isSet : Bool}
    (hlatch : s.signals k = .latch isSet) (steps : List Step) :
    (s.run steps).2.signals k =
      .latch (isSet || decide ((k, true) ∈ s.allSettings steps)) := by
  induction steps generalizing s isSet with
  | nil => simp [allSettings, hlatch]
  | cons step steps ih =>
    rw [run_cons_snd, ih (signals_step hlatch step), allSettings]
    simp [Bool.or_assoc]

def editAnswer (reply : Reply Edit) : Answer :=
  match reply.outcome with
  | .ok edit => .edit edit
  | .error text => .brokeDown text

theorem edits_step_of_known {s : Session} {h p : Handle} {name : String} (r : Request)
    (action : String) (hknown : (s.registries h).find? name = some p) :
    ∀ step ∈ [Step.edits h r name action, .resolve h r name action],
      Event.calls (s.step step).1.events = [r.call p (some action)] ∧
      (s.step step).1.answer = editAnswer ((s.providers p).edit r action s.signals) := by
  have hcalls := Dispatch.calls_resolve_of_known s.providers r hknown action s.signals
  intro step hstep
  simp only [List.mem_cons, List.not_mem_nil, or_false] at hstep
  rcases hstep with rfl | rfl
  · refine ⟨hcalls, ?_⟩
    simp only [Session.step, finish, Dispatch.edits_of_known s.providers r hknown, editAnswer]
    cases ((s.providers p).edit r action s.signals).outcome <;> rfl
  · refine ⟨hcalls, ?_⟩
    simp only [Session.step, finish, Dispatch.resolve_of_known s.providers r hknown, editAnswer]
    cases ((s.providers p).edit r action s.signals).outcome <;> rfl

/-- The cancellation of a latch is final. It is set from the moment someone sets it, a provider that
breaks down included. In a pass, whoever sets it is the last to be asked, and what was gathered is
kept. In all that follows, a pass with the latch asks nobody, in any registry, and requests for
edits still reach their provider and give its answer. -/
theorem cancellation_is_final (s : Session) {k : Handle} {isSet : Bool}
    (hlatch : s.signals k = .latch isSet) (steps : List Step) :
    let t := (s.run steps).2
    t.signals k = .latch (isSet || decide ((k, true) ∈ s.allSettings steps)) ∧
    (∀ (h : Handle) (r : Request) (before : List Visit) (v : Visit) (later : List Visit),
      r.signal = some k →
      Dispatch.visits t.providers r (t.registries h).toList t.signals = before ++ v :: later →
      (k, true) ∈ v.sets t.providers r →
        let outcome := (t.step (.discover h r)).1
        Event.calls outcome.events = (before ++ [v]).map (fun w => r.call w.provider none) ∧
        outcome.answer = match v.fault? t.providers r with
          | none => .offers ((before ++ [v]).flatMap (Visit.offers t.providers r))
          | some text => .brokeDown text) ∧
    (isSet = true ∨ (k, true) ∈ s.allSettings steps → ∀ more : List Step,
      let u := (t.run more).2
      ∀ (h : Handle) (r : Request), r.signal = some k →
        u.step (.discover h r) =
          (⟨.offers [], ((u.registries h).toList.flatMap fun p =>
            [.poll k true, .notice (.skipped (u.providers p).name)]) ++
              [.notice (.found 0 r.file.name)]⟩, u) ∧
        ∀ (name action : String) (p : Handle), (u.registries h).find? name = some p →
          ∀ step ∈ [Step.edits h r name action, .resolve h r name action],
            Event.calls (u.step step).1.events = [r.call p (some action)] ∧
            (u.step step).1.answer = editAnswer ((u.providers p).edit r action u.signals)) := by
  intro t
  have ht : t.signals k = .latch (isSet || decide ((k, true) ∈ s.allSettings steps)) :=
    signals_run hlatch steps
  refine ⟨ht, ?_, ?_⟩
  · intro h r before v later hk hvisits hsets outcome
    obtain ⟨hcalls, houtcome⟩ := Dispatch.outcome_of_sets t.providers r hk ht hvisits hsets
    refine ⟨hcalls, ?_⟩
    simp only [outcome, Session.step, finish, houtcome]
    cases v.fault? t.providers r <;> rfl
  · intro hset more u h r hk
    have hu : u.signals k = .latch true := by
      have hmore := signals_run ht more
      rcases hset with rfl | hset
      · simpa using hmore
      · simpa [hset] using hmore
    constructor
    · simp only [Session.step, Dispatch.discover_of_set u.providers r hk hu, finish]
    · intro name action p hknown
      exact edits_step_of_known r action hknown

/-- `p` sets the signal `stop` and then breaks down when asked for its offers; it still makes
edits. -/
def breakers : Providers := fun h =>
  if h = "p" then
    ({ breakOnDiscover := some "asked", onDiscover := [("stop", true)], edit := some {} } :
      Script).provider "p" "P"
  else ({ offers := some [⟨h, h, none, []⟩] } : Script).provider h h

theorem cancellation_is_final_after_breakdown :
    let s := opening breakers (fun _ => .latch false)
    let r : Request := { file := ⟨"a.ts", ""⟩, signal := some "stop" }
    let t := (s.run [.register "a" "p", .register "b" "q", .discover "a" r]).2
    s.signals "stop" = .latch false ∧ t.signals "stop" = .latch true ∧
    (t.step (.discover "b" r)).1.answer = .offers [] ∧
    (t.step (.edits "a" r "p" "fix")).1.answer = .edit (some {}) := by
  intro s r t
  have hlatch : s.signals "stop" = .latch false := rfl
  obtain ⟨hset, -, hlater⟩ :=
    cancellation_is_final s hlatch [.register "a" "p", .register "b" "q", .discover "a" r]
  have hsets : ("stop", true) ∈
      s.allSettings [.register "a" "p", .register "b" "q", .discover "a" r] := by decide
  refine ⟨hlatch, by simpa [hsets] using hset, ?_, ?_⟩
  · exact congrArg (fun o => o.1.answer) ((hlater (.inr hsets) [] "b" r rfl).1)
  · exact ((hlater (.inr hsets) [] "a" r rfl).2 "p" "fix" "p" rfl _ List.mem_cons_self).2

end Session
end CodeActions
