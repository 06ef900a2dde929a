import CodeActions.Json.Record
/-!
# Offers

What a provider answers when asked what it can do: groups of actions to choose from.
-/
namespace CodeActions
open Json Text

/-- One action to choose; its name comes back in the request for the edit. -/
structure Action where
  name : String
  description : String
deriving DecidableEq, Repr

structure Offer where
  name : String
  description : String
  inlineable : Option Bool := none
  actions : List Action := []
deriving DecidableEq, Repr

structure Listing where
  name : String
  description : String
deriving DecidableEq, Repr

def namedFields : Fields [String, String] :=
  .cons (.required "name" .text) (.cons (.required "description" .text) .nil)

def namedInspect (title name description : String) : Inspect :=
  .record title [("name", .text name), ("description", .text description)] false

namespace Action

def codec : Codec Action :=
  .record "RefactorActionInfo" namedFields (fun (name, description, ()) => ⟨name, description⟩)
    (fun a => (a.name, a.description, ()))

def inspect (a : Action) : Inspect := namedInspect "RefactorActionInfo" a.name a.description

end Action

namespace Listing

def codec : Codec Listing :=
  .record "RefactorInfo" namedFields (fun (name, description, ()) => ⟨name, description⟩)
    (fun l => (l.name, l.description, ()))

def inspect (l : Listing) : Inspect := namedInspect "RefactorInfo" l.name l.description

end Listing

namespace Offer

def codec : Codec Offer :=
  .record "ApplicableRefactorInfo"
    (.cons (.required "name" .text) <| .cons (.required "description" .text) <|
      .cons (.optional "inlineable" .flag) <| .cons (.required "actions" (.list Action.codec)) .nil)
    (fun (name, description, inlineable, actions, ()) => ⟨name, description, inlineable, actions⟩)
    (fun o => (o.name, o.description, o.inlineable, o.actions, ()))

def withAction (o : Offer) (a : Action) : Offer := { o with actions := o.actions ++ [a] }

def withInlineable (o : Offer) (b : Bool) : Offer := { o with inlineable := some b }

def inspect (o : Offer) : Inspect :=
  .record "ApplicableRefactorInfo" [("name", .text o.name), ("description", .text o.description),
    ("inlineable", .optional .flag o.inlineable),
    ("actions", .list (o.actions.map Action.inspect))] false

end Offer
end CodeActions
