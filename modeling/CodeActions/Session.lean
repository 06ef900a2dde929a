import CodeActions.Dispatch
/-!
# Sessions

A host at work: it holds registries, shares providers and signals among them, and goes step by
step. Every step gives an answer and leaves a trace of events.
-/
namespace CodeActions
open Text

structure Session where
  providers : Providers
  signals : Signals
  registries : Handle → Registry Handle

instance : Inhabited Session := ⟨fun _ => default, fun _ => .flag false, fun _ => {}⟩

/-- A question about a registry, which changes nothing. -/
inductive Query where
  | find (name : String)
  | contains (name : String)
  | names
  | size
  | isEmpty
  | summary
  | presentNames
  | listings
  | inspect
  | inspectPretty
  | inspectDispatcher

inductive Step where
  | new (registry : Handle)
  | register (registry provider : Handle)
  | tryRegister (registry provider : Handle)
  | extend (registry : Handle) (providers : List Handle)
  /-- A new registry with the given providers takes the place of the registry. -/
  | collect (registry : Handle) (providers : List Handle)
  | clone (registry source : Handle)
  | rename (provider : Handle) (name : String)
  | redescribe (provider : Handle) (description : String)
  | set (signal : Handle) (value : Bool)
  | polls (signal : Handle)
  | query (registry : Handle) (q : Query)
  | discover (registry : Handle) (r : Request)
  | edits (registry : Handle) (r : Request) (name action : String)
  | resolve (registry : Handle) (r : Request) (name action : String)

inductive Answer where
  | done
  | flag (b : Bool)
  | count (n : Nat)
  | text (s : String)
  | names (names : List String)
  | listing (listing : Option Listing)
  | listings (listings : List Listing)
  | registered (names : List String) (failure : Option Failure)
  | offers (offers : List Offer)
  | edit (edit : Option Edit)
  | failed (failure : Failure)
  | brokeDown (text : String)

structure Outcome where
  answer : Answer
  events : List Event := []

def Registry.answer (look : Providers) (r : Registry Handle) : Query → Answer
  | .find name => .listing ((r.find? name).map fun h => (look h).listing)
  | .contains name => .flag (r.contains name)
  | .names => .names r.names
  | .size => .count r.size
  | .isEmpty => .flag r.isEmpty
  | .summary => .text (r.summary look)
  | .presentNames => .names (r.toList.map fun h => (look h).name)
  | .listings => .listings (r.listings look)
  | .inspect => .text r.inspect.line
  | .inspectPretty => .text r.inspect.pretty
  | .inspectDispatcher => .text (Dispatch.inspect r).line

namespace Session

def withRegistry (s : Session) (h : Handle) (r : Registry Handle) : Session :=
  { s with registries := fun k => if k = h then r else s.registries k }

@[simp] theorem withRegistry_same (s : Session) (h : Handle) (r : Registry Handle) :
    (s.withRegistry h r).registries h = r := by
  simp [withRegistry]

theorem withRegistry_of_ne (s : Session) {h k : Handle} (r : Registry Handle) (hne : k ≠ h) :
    (s.withRegistry h r).registries k = s.registries k := by
  simp [withRegistry, hne]

@[simp] theorem withRegistry_self (s : Session) (h : Handle) :
    s.withRegistry h (s.registries h) = s := by
  have hsame : (s.withRegistry h (s.registries h)).registries = s.registries := by
    funext k
    by_cases hk : k = h
    · rw [hk, withRegistry_same]
    · exact withRegistry_of_ne s _ hk
  exact congrArg (Session.mk s.providers s.signals) hsame

def keep (s : Session) (h : Handle) (r : Registry Handle) (answer : Answer)
    (notices : List Notice) : Outcome × Session :=
  (⟨answer, notices.map .notice⟩, s.withRegistry h r)

def finish {α : Type} (s : Session) (run : Run α) (answer : α → Answer) :
    Outcome × Session :=
  (⟨match run.outcome with
    | .ok a => answer a
    | .error text => .brokeDown text, run.events⟩, { s with signals := run.signals })

def step (s : Session) : Step → Outcome × Session
  | .new h => s.keep h {} .done []
  | .register h p =>
      let (r, notice) := (s.registries h).register s.providers p
      s.keep h r (.registered r.names none) [notice]
  | .tryRegister h p =>
      match (s.registries h).tryRegister s.providers p with
      | .ok (r, notice) => s.keep h r (.registered r.names none) [notice]
      | .error failure => (⟨.registered (s.registries h).names (some failure), []⟩, s)
  | .extend h ps =>
      let (r, notices) := (s.registries h).registerAll s.providers ps
      s.keep h r (.registered r.names none) notices
  | .collect h ps =>
      let (r, notices) := ({} : Registry Handle).registerAll s.providers ps
      s.keep h r (.names r.names) notices
  | .clone h source =>
      let r := s.registries source
      s.keep h r (.names r.names) []
  | .rename p name =>
      (⟨.done, []⟩, { s with providers := s.providers.update p ({ · with name }) })
  | .redescribe p description =>
      (⟨.done, []⟩, { s with providers := s.providers.update p ({ · with description }) })
  | .set h value => (⟨.done, []⟩, { s with signals := s.signals.update h (Signal.set value) })
  | .polls h => (⟨.count (s.signals h).polls, []⟩, s)
  | .query h q => (⟨(s.registries h).answer s.providers q, []⟩, s)
  | .discover h r => s.finish (Dispatch.discover s.providers r (s.registries h) s.signals) .offers
  | .edits h r name action =>
      s.finish (Dispatch.edits s.providers r (s.registries h) name action s.signals) .edit
  | .resolve h r name action =>
      s.finish (Dispatch.resolve s.providers r (s.registries h) name action s.signals) fun
        | .ok edit => .edit edit
        | .error failure => .failed failure

def run (s : Session) : List Step → List Outcome × Session
  | [] => ([], s)
  | step :: steps =>
      let (outcome, s) := s.step step
      let (outcomes, s) := s.run steps
      (outcome :: outcomes, s)

@[simp] theorem run_nil (s : Session) : s.run [] = ([], s) := rfl

theorem run_cons_snd (s : Session) (step : Step) (steps : List Step) :
    (s.run (step :: steps)).2 = ((s.step step).2.run steps).2 := rfl

theorem run_append_snd (s : Session) (steps more : List Step) :
    (s.run (steps ++ more)).2 = ((s.run steps).2.run more).2 := by
  induction steps generalizing s with
  | nil => rfl
  | cons step steps ih => rw [List.cons_append, run_cons_snd, run_cons_snd, ih]

end Session

def Event.calls (events : List Event) : List Call :=
  events.filterMap fun | .call c => some c | _ => none

def Event.notices (events : List Event) : List Notice :=
  events.filterMap fun | .notice n => some n | _ => none

end CodeActions
