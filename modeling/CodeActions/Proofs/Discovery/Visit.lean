import CodeActions.Session
/-!
# Visits

A discovery pass seen turn by turn: which provider is visited, and what the signals are when its
turn comes. A pass is its visits put together (`discover_eq`). Each visit starts from the signals
that the one before has left, and the visits end at the first provider that breaks down.
-/
namespace CodeActions

def Event.polls (events : List Event) : List (Handle × Bool) :=
  events.filterMap fun | .poll h answer => some (h, answer) | _ => none

def Event.skips (events : List Event) : List String :=
  (Event.notices events).filterMap fun | .skipped name => some name | _ => none

/-- The turn of a provider, and the signals as they are when it comes. -/
structure Visit where
  provider : Handle
  signals : Signals

namespace Visit
variable (ps : Providers) (r : Request) (v : Visit)

/-- Whether the poll of this turn answers that the work is to stop. -/
def isSkipped : Bool := r.signal.any fun k => (v.signals k).answer

def polled : Signals :=
  match r.signal with
  | none => v.signals
  | some k => v.signals.update k Signal.polled

def reply : Reply (List Offer) := (ps v.provider).discover (ps v.provider).name r (v.polled r)

/-- The text with which the provider breaks down, if it is asked and does so. -/
def fault? : Option String :=
  if v.isSkipped r then none
  else match (v.reply ps r).outcome with
    | .ok _ => none
    | .error text => some text

def offers : List Offer :=
  if v.isSkipped r then []
  else match (v.reply ps r).outcome with
    | .ok offers => offers.getD []
    | .error _ => []

def after : Signals :=
  if v.isSkipped r then v.polled r else (v.polled r).setAll (v.reply ps r).sets

/-- What happens in the turn: a poll if there is a signal, and then the skip or the call. -/
def events : List Event :=
  (r.signal.toList.map fun k => .poll k (v.signals k).answer) ++
    [if v.isSkipped r then .notice (.skipped (ps v.provider).name) else .call (r.call v.provider none)]

theorem calls_events :
    Event.calls (v.events ps r) = if !v.isSkipped r then [r.call v.provider none] else [] := by
  unfold events Event.calls
  cases r.signal <;> cases v.isSkipped r <;> rfl

theorem notices_events :
    Event.notices (v.events ps r) =
      if v.isSkipped r then [.skipped (ps v.provider).name] else [] := by
  unfold events Event.notices
  cases r.signal <;> cases v.isSkipped r <;> rfl

theorem polls_events :
    Event.polls (v.events ps r) = r.signal.toList.map fun k => (k, (v.signals k).answer) := by
  unfold events Event.polls
  cases r.signal <;> cases v.isSkipped r <;> rfl

end Visit

namespace Dispatch
variable (ps : Providers) (r : Request)

def visits : List Handle → Signals → List Visit
  | [], _ => []
  | h :: hs, s =>
      let v : Visit := ⟨h, s⟩
      v :: if (v.fault? ps r).isSome then [] else visits hs (v.after ps r)

/-- The signals that visits leave one after the other. -/
def settle : Signals → List Visit → Signals
  | s, [] => s
  | _, v :: vs => settle (v.after ps r) vs

/-- The visits follow one another from the signals `s` to the signals `t`. -/
inductive Threaded : Signals → List Visit → Signals → Prop
  | nil (s : Signals) : Threaded s [] s
  | cons {v : Visit} {vs : List Visit} {t : Signals} (rest : Threaded (v.after ps r) vs t) :
      Threaded v.signals (v :: vs) t

/-- The text of the first visit that breaks down, and else a result. -/
def verdict {α : Type} (vs : List Visit) (a : α) : Except String α :=
  match vs.findSome? (Visit.fault? ps r) with
  | none => .ok a
  | some text => .error text

theorem visits_cons_of_fault {h : Handle} {s : Signals} {text : String}
    (hfault : Visit.fault? ps r ⟨h, s⟩ = some text) (hs : List Handle) :
    visits ps r (h :: hs) s = [⟨h, s⟩] := by
  simp [visits, hfault]

theorem visits_cons_of_calm {h : Handle} {s : Signals}
    (hcalm : Visit.fault? ps r ⟨h, s⟩ = none) (hs : List Handle) :
    visits ps r (h :: hs) s = ⟨h, s⟩ :: visits ps r hs (Visit.after ps r ⟨h, s⟩) := by
  simp [visits, hcalm]

private theorem turn_eq (v : Visit) :
    turn ps r v.provider v.signals =
      ⟨match v.fault? ps r with
        | none => .ok (v.offers ps r)
        | some text => .error text, v.after ps r, v.events ps r⟩ := by
  have hpoll : r.poll v.signals =
      ⟨.ok (v.isSkipped r), v.polled r,
        r.signal.toList.map fun k => .poll k (v.signals k).answer⟩ := by
    unfold Request.poll Visit.isSkipped Visit.polled
    cases r.signal <;> rfl
  unfold turn
  rw [hpoll, Run.andThen_of_ok rfl]
  unfold Visit.fault? Visit.offers Visit.after Visit.events
  cases hskip : v.isSkipped r with
  | true => rfl
  | false =>
    change (ask ps r v.provider (v.polled r)).after _ = _
    have hreply : ask ps r v.provider (v.polled r) =
        ((v.reply ps r).run (r.call v.provider none) (v.polled r)).map (·.getD []) := rfl
    rw [hreply]
    unfold Reply.run Run.map Run.after
    cases (v.reply ps r).outcome <;> rfl

private theorem turns_eq (hs : List Handle) (s : Signals) :
    turns ps r hs s =
      ⟨verdict ps r (visits ps r hs s) ((visits ps r hs s).flatMap (Visit.offers ps r)),
        settle ps r s (visits ps r hs s), (visits ps r hs s).flatMap (Visit.events ps r)⟩ := by
  induction hs generalizing s with
  | nil => rfl
  | cons h hs ih =>
    have hturn := turn_eq ps r ⟨h, s⟩
    unfold turns
    cases hfault : Visit.fault? ps r ⟨h, s⟩ with
    | some text =>
      rw [hfault] at hturn
      rw [hturn, Run.andThen_of_error rfl, visits_cons_of_fault ps r hfault]
      simp [verdict, settle, hfault]
    | none =>
      rw [hfault] at hturn
      rw [hturn, Run.andThen_of_ok rfl, ih, visits_cons_of_calm ps r hfault]
      simp only [Run.map, Run.after, verdict, settle, hfault, List.flatMap_cons,
        List.findSome?_cons]
      cases (visits ps r hs (Visit.after ps r ⟨h, s⟩)).findSome? (Visit.fault? ps r) <;> rfl

/-- A pass is its visits put together, and a last notice if none of them breaks down. -/
theorem discover_eq (registry : Registry Handle) (s : Signals) :
    let vs := visits ps r registry.toList s
    discover ps r registry s =
      ⟨verdict ps r vs (vs.flatMap (Visit.offers ps r)), settle ps r s vs,
        vs.flatMap (Visit.events ps r) ++
          match vs.findSome? (Visit.fault? ps r) with
          | none => [.notice (.found (vs.flatMap (Visit.offers ps r)).length r.file.name)]
          | some _ => []⟩ := by
  intro vs
  unfold discover
  rw [turns_eq]
  unfold verdict
  cases hfault : vs.findSome? (Visit.fault? ps r) with
  | none =>
    rw [Run.andThen_of_ok rfl]
    rfl
  | some text =>
    rw [Run.andThen_of_error rfl]
    simp [vs]

theorem visits_threaded (hs : List Handle) (s : Signals) :
    Threaded ps r s (visits ps r hs s) (settle ps r s (visits ps r hs s)) := by
  induction hs generalizing s with
  | nil => exact .nil s
  | cons h hs ih =>
    cases hfault : Visit.fault? ps r ⟨h, s⟩ with
    | some text =>
      rw [visits_cons_of_fault ps r hfault]
      exact .cons (v := ⟨h, s⟩) (.nil _)
    | none =>
      rw [visits_cons_of_calm ps r hfault]
      exact .cons (v := ⟨h, s⟩) (ih _)

theorem visits_providers_isPrefix (hs : List Handle) (s : Signals) :
    (visits ps r hs s).map Visit.provider <+: hs := by
  induction hs generalizing s with
  | nil => exact List.prefix_rfl
  | cons h hs ih =>
    cases hfault : Visit.fault? ps r ⟨h, s⟩ with
    | some text => simp [visits_cons_of_fault ps r hfault]
    | none => simpa [visits_cons_of_calm ps r hfault] using ih _

theorem visits_providers {hs : List Handle} {s : Signals}
    (hcalm : ∀ v ∈ visits ps r hs s, v.fault? ps r = none) :
    (visits ps r hs s).map Visit.provider = hs := by
  induction hs generalizing s with
  | nil => rfl
  | cons h hs ih =>
    have hhead : Visit.fault? ps r ⟨h, s⟩ = none := by
      apply hcalm
      simp [visits]
    rw [visits_cons_of_calm ps r hhead] at hcalm ⊢
    rw [List.map_cons, ih fun v hv => hcalm v (List.mem_cons_of_mem _ hv)]

end Dispatch

/-- What a pass is to the host: all offers, or the text of the first visit that breaks down. -/
theorem Session.answer_discover (s : Session) (h : Handle) (r : Request) :
    let vs := Dispatch.visits s.providers r (s.registries h).toList s.signals
    (s.step (.discover h r)).1.answer =
      match vs.findSome? (Visit.fault? s.providers r) with
      | none => .offers (vs.flatMap (Visit.offers s.providers r))
      | some text => .brokeDown text := by
  intro vs
  simp only [step, finish, Dispatch.discover_eq, Dispatch.verdict, vs]
  cases vs.findSome? (Visit.fault? s.providers r) <;> rfl

end CodeActions
