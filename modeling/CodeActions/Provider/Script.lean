import CodeActions.Provider
/-!
# Providers that follow a script

A provider whose answers are laid down beforehand: for trying out hosts and registries. One that
echoes answers with what it sees of the request.
-/
namespace CodeActions

structure Script where
  offers : Option (List Offer) := none
  /-- The answer for every action that `edits` does not mention. -/
  edit : Option Edit := none
  edits : List (String × Option Edit) := []
  onDiscover : List (Handle × Bool) := []
  onEdit : List (Handle × Bool) := []
  breakOnDiscover : Option String := none
  breakOnEdit : Option String := none
  echo : Bool := false

namespace Script

def echoText (r : Request) : String :=
  "|".intercalate [r.file.text, toString r.selectionLength.toInt, ",".intercalate r.roots,
    newLineFor r]

def discover (s : Script) (name : String) (r : Request) : Reply (List Offer) where
  sets := s.onDiscover
  outcome := match s.breakOnDiscover with
    | some text => .error text
    | none => .ok (if s.echo then some [⟨name, echoText r, none, []⟩] else s.offers)

def answer (s : Script) (r : Request) (action : String) : Reply Edit where
  sets := s.onEdit
  outcome := match s.breakOnEdit with
    | some text => .error text
    | none => .ok <|
        if s.echo then
          some ⟨[⟨r.file.name, [.insert r.start (echoText r),
            .replace r.start (r.stop.getD 0) action]⟩], none, none⟩
        else (s.edits.lookup action).getD s.edit

def provider (s : Script) (name description : String) : Provider :=
  ⟨name, description, fun name r _ => s.discover name r, fun r action _ => s.answer r action⟩

end Script
end CodeActions
