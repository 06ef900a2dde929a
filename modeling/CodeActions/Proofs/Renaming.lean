import CodeActions.Proofs.Registration.Views
import CodeActions.Proofs.Routing
import CodeActions.Provider.Script
import Mathlib.Data.List.Count
/-!
# Renaming

Slots are filed under the names that providers had when they were registered, and a provider that
takes another name stays where it is (`renaming_moves_no_slot`). What reads the slots by their names
sees no difference; what asks the providers for their names does.
-/
namespace CodeActions

/-- Replies that differ in what they offer at most. -/
def Reply.Alike {α : Type} (a b : Reply α) : Prop :=
  a.sets = b.sets ∧ a.outcome.map (fun _ => ()) = b.outcome.map (fun _ => ())

namespace Providers
variable (ps : Providers) (p q : Handle) (name : String)

private theorem name_rename :
    (ps.update p ({ · with name }) q).name = if q = p then name else (ps q).name := by
  by_cases hq : q = p
  · simp [hq]
  · rw [update_of_ne ps _ hq, if_neg hq]

private theorem description_rename :
    (ps.update p ({ · with name }) q).description = (ps q).description := by
  by_cases hq : q = p
  · simp [hq]
  · rw [update_of_ne ps _ hq]

private theorem edit_rename : (ps.update p ({ · with name }) q).edit = (ps q).edit := by
  by_cases hq : q = p
  · simp [hq]
  · rw [update_of_ne ps _ hq]

end Providers

private theorem Registry.summary_congr {π : Type} {look look' : π → Provider} (r : Registry π)
    (hdescription : ∀ p, (look' p).description = (look p).description) :
    r.summary look' = r.summary look := by
  unfold summary
  simp only [hdescription]

namespace Visit
variable {ps ps' : Providers} {r : Request} {v : Visit}

private theorem fault?_congr (halike : (v.reply ps' r).Alike (v.reply ps r)) :
    v.fault? ps' r = v.fault? ps r := by
  have houtcome := halike.2
  unfold fault?
  cases v.isSkipped r with
  | true => rfl
  | false =>
    cases hps' : (v.reply ps' r).outcome <;> cases hps : (v.reply ps r).outcome <;>
      simp_all [Except.map]

private theorem after_congr (halike : (v.reply ps' r).Alike (v.reply ps r)) :
    v.after ps' r = v.after ps r := by
  simp only [after, halike.1]

end Visit

namespace Dispatch
variable {ps ps' : Providers}

private theorem visits_congr {r : Request}
    (halike : ∀ v : Visit, (v.reply ps' r).Alike (v.reply ps r)) (hs : List Handle) (s : Signals) :
    visits ps' r hs s = visits ps r hs s := by
  induction hs generalizing s with
  | nil => rfl
  | cons h hs ih =>
    simp only [visits, Visit.fault?_congr (halike ⟨h, s⟩), Visit.after_congr (halike ⟨h, s⟩), ih]

private theorem resolve_congr (hedit : ∀ p, (ps' p).edit = (ps p).edit) (r : Request)
    (registry : Registry Handle) (name action : String) (s : Signals) :
    resolve ps' r registry name action s = resolve ps r registry name action s := by
  simp only [resolve, hedit]

private theorem edits_congr (hedit : ∀ p, (ps' p).edit = (ps p).edit) (r : Request)
    (registry : Registry Handle) (name action : String) (s : Signals) :
    edits ps' r registry name action s = edits ps r registry name action s := by
  simp only [edits, resolve_congr hedit]

end Dispatch

namespace Session

def visits (s : Session) (h : Handle) (r : Request) : List Visit :=
  Dispatch.visits s.providers r (s.registries h).toList s.signals

variable {s : Session} {h p : Handle} {r : Request}

private theorem calls_step_discover (s : Session) (h : Handle) (r : Request) :
    Event.calls (s.step (.discover h r)).1.events =
      ((s.visits h r).filter fun v => !v.isSkipped r).map fun v => r.call v.provider none :=
  Dispatch.calls_discover s.providers r (s.registries h) s.signals

private theorem skips_step_discover (s : Session) (h : Handle) (r : Request) :
    Event.skips (s.step (.discover h r)).1.events =
      ((s.visits h r).filter fun v => v.isSkipped r).map fun v => (s.providers v.provider).name :=
  Dispatch.skips_discover s.providers r (s.registries h) s.signals

private theorem count_visits (hnodup : (s.registries h).names.Nodup) (p : Handle)
    (hcalm : ∀ v ∈ s.visits h r, v.fault? s.providers r = none) :
    ((s.visits h r).map Visit.provider).count p = ((s.registries h).namesOf p).length := by
  have hvisits : (s.visits h r).map Visit.provider = (s.registries h).toList :=
    Dispatch.visits_providers s.providers r hcalm
  rw [hvisits, Registry.count_toList hnodup]

private theorem count_calls (hsignal : r.signal = none) (p : Handle) :
    (Event.calls (s.step (.discover h r)).1.events).count (r.call p none) =
      ((s.visits h r).map Visit.provider).count p := by
  have hinjective : Function.Injective fun q => r.call q none := by
    intro q q' hcall
    exact congrArg Call.provider hcall
  have hall : ∀ v ∈ s.visits h r, (!v.isSkipped r) = true := by
    simp [Visit.isSkipped, hsignal]
  rw [calls_step_discover, List.filter_eq_self.mpr hall,
    ← List.count_map_of_injective _ _ hinjective, List.map_map]
  rfl

private theorem turns_of_names (hnodup : (s.registries h).names.Nodup) (p : Handle)
    (hcalm : ∀ v ∈ s.visits h r, v.fault? s.providers r = none) :
    ((s.visits h r).map Visit.provider).count p = ((s.registries h).namesOf p).length ∧
      (r.signal = none →
        (Event.calls (s.step (.discover h r)).1.events).count (r.call p none) =
          ((s.registries h).namesOf p).length) := by
  have hcount := count_visits hnodup p hcalm
  exact ⟨hcount, fun hsignal => by rw [count_calls hsignal, hcount]⟩

private theorem visits_rename {name : String}
    (halike : ∀ k, ((s.providers p).discover name r k).Alike
      ((s.providers p).discover (s.providers p).name r k)) (h : Handle) :
    (s.step (.rename p name)).2.visits h r = s.visits h r := by
  apply Dispatch.visits_congr
  intro v
  change (v.reply (s.providers.update p ({ · with name })) r).Alike _
  by_cases hv : v.provider = p
  · simpa only [Visit.reply, hv, Providers.update_same] using halike (v.polled r)
  · simp only [Visit.reply, Providers.update_of_ne _ _ hv]
    exact ⟨rfl, rfl⟩

private theorem query_rename (s : Session) (p : Handle) (name : String) (h : Handle) (n : String) :
    ∀ q ∈ [Query.names, .size, .isEmpty, .contains n, .summary, .inspect, .inspectPretty,
      .inspectDispatcher],
      ((s.step (.rename p name)).2.step (.query h q)).1 = (s.step (.query h q)).1 := by
  intro q hq
  have hsummary : ((s.step (.rename p name)).2.step (.query h .summary)).1 =
      (s.step (.query h .summary)).1 :=
    congrArg (fun text => (⟨.text text, []⟩ : Outcome))
      ((s.registries h).summary_congr (Providers.description_rename s.providers p · name))
  simp only [List.mem_cons, List.not_mem_nil, or_false] at hq
  rcases hq with rfl | rfl | rfl | rfl | rfl | rfl | rfl | rfl
  case inr.inr.inr.inr.inl => exact hsummary
  all_goals rfl

private theorem register_named {name : String} (hname : (s.providers p).name = name) :
    let w := (s.step (.register h p)).2
    (w.registries h).names =
      (if name ∈ (s.registries h).names then (s.registries h).names
        else (s.registries h).names ++ [name]) ∧
    (w.registries h).find? name = some p ∧
    (∀ other, other ≠ name → (w.registries h).find? other = (s.registries h).find? other) ∧
    (name ∉ (s.registries h).names → (s.step (.tryRegister h p)).2 = w) ∧
    (name ∈ (s.registries h).names → s.step (.tryRegister h p) =
      (⟨.registered (s.registries h).names (some (.duplicateName name)), []⟩, s)) := by
  intro w
  have hregistry : w.registries h = (s.registries h).insert name p := by
    simp only [w, step_register, hname, withRegistry_same]
  rw [hregistry]
  refine ⟨Registry.names_insert .., ?_, fun other hother => ?_, fun hfree => ?_, fun htaken => ?_⟩
  · rw [Registry.find?_insert, if_pos rfl]
  · rw [Registry.find?_insert, if_neg hother]
  · rw [← hname] at hfree
    exact step_tryRegister_of_free hfree
  · rw [← hname] at htaken ⊢
    simp only [step, Registry.tryRegister_of_taken htaken]

/-- A provider that takes another name moves no slot. All that is read off the slots stays as it
was, and the same provider is found under every name. Those whose turn comes in a pass are the same
as before, in the same order: all of the registry unless someone breaks down, and in any case if
nothing but its offers tells the provider's new name. A request for an edit reaches whom it reached
before, with the same reply, or finds the name unknown as before. What the providers are asked for
their names shows the new one: their lists, and the notices of skips. If the provider is registered
again, it is filed under the new name, in its place if that is taken or else at the end, and the
other slots stay; a strict registration does the same or is refused. The turn of the provider then
comes once for each name that it is filed under. -/
theorem renaming_moves_no_slot (ps : Providers) (signals : Signals) (steps : List Step)
    (p : Handle) (name : String) (h : Handle) :
    let s := ((opening ps signals).run steps).2
    let t := (s.step (.rename p name)).2
    (∀ n, ∀ q ∈ [Query.names, .size, .isEmpty, .contains n, .summary, .inspect, .inspectPretty,
      .inspectDispatcher], (t.step (.query h q)).1 = (s.step (.query h q)).1) ∧
    (∀ n, (t.registries h).find? n = (s.registries h).find? n) ∧
    (∀ r : Request,
      (∀ u ∈ [s, t], (u.visits h r).map Visit.provider <+: (s.registries h).toList ∧
        ((∀ v ∈ u.visits h r, v.fault? u.providers r = none) →
          (u.visits h r).map Visit.provider = (s.registries h).toList)) ∧
      ((∀ k, ((s.providers p).discover name r k).Alike
          ((s.providers p).discover (s.providers p).name r k)) →
        t.visits h r = s.visits h r ∧
        Event.calls (t.step (.discover h r)).1.events =
          Event.calls (s.step (.discover h r)).1.events) ∧
      Event.skips (t.step (.discover h r)).1.events =
        ((t.visits h r).filter fun v => v.isSkipped r).map
          fun v => if v.provider = p then name else (s.providers v.provider).name) ∧
    (∀ (r : Request) (n action : String),
      Dispatch.Reaches s.providers r (s.registries h) n action s.signals
        ((s.registries h).find? n) ∧
      Dispatch.Reaches t.providers r (t.registries h) n action t.signals
        ((s.registries h).find? n) ∧
      Dispatch.resolve t.providers r (t.registries h) n action t.signals =
        Dispatch.resolve s.providers r (s.registries h) n action s.signals ∧
      Dispatch.edits t.providers r (t.registries h) n action t.signals =
        Dispatch.edits s.providers r (s.registries h) n action s.signals) ∧
    (t.registries h).listings t.providers = ((s.registries h).toList.map fun q =>
      ⟨if q = p then name else (s.providers q).name, (s.providers q).description⟩) ∧
    (t.registries h).toList.map (fun q => (t.providers q).name) =
      ((s.registries h).toList.map fun q => if q = p then name else (s.providers q).name) ∧
    ∀ more : List Step, (∀ n, .rename p n ∉ more) →
      let u := (t.run more).2
      let w := (u.step (.register h p)).2
      (w.registries h).names =
        (if name ∈ (u.registries h).names then (u.registries h).names
          else (u.registries h).names ++ [name]) ∧
      (w.registries h).find? name = some p ∧
      (∀ other, other ≠ name → (w.registries h).find? other = (u.registries h).find? other) ∧
      (name ∉ (u.registries h).names → (u.step (.tryRegister h p)).2 = w) ∧
      (name ∈ (u.registries h).names → u.step (.tryRegister h p) =
        (⟨.registered (u.registries h).names (some (.duplicateName name)), []⟩, u)) ∧
      ∀ r : Request, ∀ x ∈ [u, w], (∀ v ∈ x.visits h r, v.fault? x.providers r = none) →
        ((x.visits h r).map Visit.provider).count p = ((x.registries h).namesOf p).length ∧
        (r.signal = none →
          (Event.calls (x.step (.discover h r)).1.events).count (r.call p none) =
            ((x.registries h).namesOf p).length) := by
  intro s t
  have hname (q : Handle) : (t.providers q).name = if q = p then name else (s.providers q).name :=
    Providers.name_rename s.providers p q name
  have hdescription (q : Handle) : (t.providers q).description = (s.providers q).description :=
    Providers.description_rename s.providers p q name
  have hedit (q : Handle) : (t.providers q).edit = (s.providers q).edit :=
    Providers.edit_rename s.providers p q name
  refine ⟨query_rename s p name h, fun n => rfl, fun r => ⟨?_, ?_, ?_⟩, ?_, ?_, ?_, ?_⟩
  · intro u hu
    have hregistries : u.registries h = s.registries h := by
      simp only [List.mem_cons, List.not_mem_nil, or_false] at hu
      rcases hu with rfl | rfl <;> rfl
    rw [← hregistries]
    exact ⟨Dispatch.visits_providers_isPrefix u.providers r _ u.signals,
      Dispatch.visits_providers u.providers r⟩
  · intro halike
    have hvisits : t.visits h r = s.visits h r := visits_rename halike h
    refine ⟨hvisits, ?_⟩
    rw [calls_step_discover, calls_step_discover, hvisits]
  · rw [skips_step_discover]
    exact List.map_congr_left fun v _ => hname v.provider
  · intro r n action
    exact ⟨Dispatch.reaches_find? s.providers r (s.registries h) n action s.signals,
      Dispatch.reaches_find? t.providers r (t.registries h) n action t.signals,
      Dispatch.resolve_congr hedit r (s.registries h) n action s.signals,
      Dispatch.edits_congr hedit r (s.registries h) n action s.signals⟩
  · exact List.map_congr_left fun q _ => congrArg₂ Listing.mk (hname q) (hdescription q)
  · exact List.map_congr_left fun q _ => hname q
  · intro more hmore u w
    have hs : s.Follows _ := follows_opening ps signals steps
    have hu : u.Follows _ := follows_run (follows_step hs (.rename p name)) more
    have hw : w.Follows _ := follows_step hu (.register h p)
    have hp : (u.providers p).name = name := by
      rw [name_run hmore, hname, if_pos rfl]
    obtain ⟨hnames, hnew, hother, hfree, htaken⟩ := register_named (h := h) hp
    refine ⟨hnames, hnew, hother, hfree, htaken, fun r x hx => ?_⟩
    have hnodup : (x.registries h).names.Nodup := by
      simp only [List.mem_cons, List.not_mem_nil, or_false] at hx
      rcases hx with rfl | rfl
      · exact (hu h).nodup
      · exact (hw h).nodup
    exact turns_of_names hnodup p

/-- A provider is registered under two names, and is asked twice. -/
theorem renaming_moves_no_slot_of_two_names :
    let s := ((opening (fun h => ({} : Script).provider h h) fun _ => .flag false).run
      [.extend "a" ["p", "q"]]).2
    let u := (s.step (.rename "p" "t")).2
    let w := (u.step (.register "a" "p")).2
    let r : Request := { file := ⟨"a.ts", ""⟩ }
    (∀ n, .rename "p" n ∉ ([] : List Step)) ∧
    (∀ v ∈ w.visits "a" r, v.fault? w.providers r = none) ∧
    (let known := Dispatch.resolve u.providers r (u.registries "a") "p" "fix" u.signals
      let unknown := Dispatch.resolve u.providers r (u.registries "a") "t" "fix" u.signals
      Event.calls known.events = [r.call "p" (some "fix")] ∧
      Event.calls unknown.events = [] ∧ unknown.outcome = .ok (.error (.unknownName "t"))) ∧
    (u.registries "a").names = ["p", "q"] ∧ (w.registries "a").names = ["p", "q", "t"] ∧
    (w.registries "a").find? "p" = some "p" ∧ (w.registries "a").find? "t" = some "p" ∧
    (Event.calls (w.step (.discover "a" r)).1.events).count (r.call "p" none) = 2 := by
  intro s u w r
  have hmore : ∀ n, .rename "p" n ∉ ([] : List Step) := fun n => List.not_mem_nil
  have hcalm : ∀ v ∈ w.visits "a" r, v.fault? w.providers r = none := by decide
  obtain ⟨-, -, -, hedit, -, -, hlater⟩ := renaming_moves_no_slot (fun h => ({} : Script).provider h h)
    (fun _ => .flag false) [.extend "a" ["p", "q"]] "p" "t" "a"
  obtain ⟨hnames, hnew, hother, -, -, hcount⟩ := hlater [] hmore
  obtain ⟨-, ⟨-, hcalls, -⟩, -⟩ := hedit r "p" "fix"
  obtain ⟨-, ⟨⟨hfails, -⟩, hnobody, -⟩, -⟩ := hedit r "t" "fix"
  refine ⟨hmore, hcalm, ⟨hcalls, hnobody, hfails⟩, by decide, hnames, hother "p" (by decide), hnew, ?_⟩
  exact (hcount r w (List.mem_cons_of_mem _ List.mem_cons_self) hcalm).2 rfl

end Session
end CodeActions
