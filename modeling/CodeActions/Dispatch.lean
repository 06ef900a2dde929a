import CodeActions.Registry
/-!
# Dispatch

Requests are put to the providers of a registry: all are asked for offers, in their order, and one
is asked for an edit. A `Run` tells what came of it and everything that happened, in order. When a
provider breaks down, so does the run, and nothing more happens.
-/
namespace CodeActions
open Text

/-- A provider was asked: for its offers, or for the edit of an action. -/
structure Call where
  provider : Handle
  action : Option String
  file : String
  start : UInt64
  stop : Option UInt64
deriving DecidableEq, Repr

inductive Event where
  | poll (signal : Handle) (answer : Bool)
  | call (c : Call)
  | notice (n : Notice)
deriving DecidableEq, Repr

/-- What a piece of work came to, or the text with which it broke down; the signals after it; and
what happened on the way. -/
structure Run (α : Type) where
  outcome : Except String α
  signals : Signals
  events : List Event

namespace Run
variable {α β : Type}

def after (events : List Event) (r : Run α) : Run α := { r with events := events ++ r.events }

def map (f : α → β) (r : Run α) : Run β := { r with outcome := r.outcome.map f }

def andThen (r : Run α) (next : α → Signals → Run β) : Run β :=
  match r.outcome with
  | .error text => ⟨.error text, r.signals, r.events⟩
  | .ok a => (next a r.signals).after r.events

@[simp] theorem after_nil (r : Run α) : r.after [] = r := rfl

@[simp] theorem after_after (es fs : List Event) (r : Run α) :
    (r.after fs).after es = r.after (es ++ fs) := by
  simp [after]

theorem andThen_of_ok {r : Run α} {a : α} (h : r.outcome = .ok a)
    (next : α → Signals → Run β) : r.andThen next = (next a r.signals).after r.events := by
  simp [andThen, h]

theorem andThen_of_error {r : Run α} {text : String} (h : r.outcome = .error text)
    (next : α → Signals → Run β) : r.andThen next = ⟨.error text, r.signals, r.events⟩ := by
  simp [andThen, h]

end Run

def Reply.run {α : Type} (reply : Reply α) (c : Call) (s : Signals) : Run (Option α) :=
  ⟨reply.outcome, s.setAll reply.sets, [.call c]⟩

namespace Request

/-- Asks whether to stop, which is never the case without a signal. -/
def poll (r : Request) (s : Signals) : Run Bool :=
  match r.signal with
  | none => ⟨.ok false, s, []⟩
  | some h => ⟨.ok (s h).answer, s.update h Signal.polled, [.poll h (s h).answer]⟩

def call (r : Request) (provider : Handle) (action : Option String) : Call :=
  ⟨provider, action, r.file.name, r.start, r.stop⟩

end Request

namespace Dispatch
variable (ps : Providers) (r : Request)

def ask (h : Handle) (s : Signals) : Run (List Offer) :=
  (((ps h).discover (ps h).name r s).run (r.call h none) s).map (·.getD [])

/-- The turn of a provider: it is skipped if the signal says so when its turn comes. -/
def turn (h : Handle) (s : Signals) : Run (List Offer) :=
  (r.poll s).andThen fun isCancelled s =>
    if isCancelled then ⟨.ok [], s, [.notice (.skipped (ps h).name)]⟩ else ask ps r h s

def turns : List Handle → Signals → Run (List Offer)
  | [], s => ⟨.ok [], s, []⟩
  | h :: hs, s => (turn ps r h s).andThen fun offers s => (turns hs s).map (offers ++ ·)

def discover (registry : Registry Handle) (s : Signals) : Run (List Offer) :=
  (turns ps r registry.toList s).andThen fun offers s =>
    ⟨.ok offers, s, [.notice (.found offers.length r.file.name)]⟩

/-- The edit that the provider filed under `name` makes for an action; the provider may decline.
The signal is not asked. -/
def resolve (registry : Registry Handle) (name action : String) (s : Signals) :
    Run (Except Failure (Option Edit)) :=
  match registry.find? name with
  | none => ⟨.ok (.error (.unknownName name)), s, [.notice (.unknown name)]⟩
  | some h =>
      ((((ps h).edit r action s).run (r.call h (some action)) s).andThen fun edit s =>
        ⟨.ok (.ok edit), s, if edit.isNone then [.notice (.declined action name)] else []⟩).after
          [.notice (.requested action name)]

/-- The same edit, with no difference between a name that is unknown and a provider that
declines. -/
def edits (registry : Registry Handle) (name action : String) (s : Signals) : Run (Option Edit) :=
  (resolve ps r registry name action s).map fun
    | .ok edit => edit
    | .error _ => none

def inspect (registry : Registry Handle) : Inspect :=
  .record "RefactorDispatcher" [("registry", registry.inspect)] false

end Dispatch
end CodeActions
