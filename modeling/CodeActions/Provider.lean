import CodeActions.Edit
import CodeActions.Offer
import CodeActions.Request
/-!
# Providers

A provider tells what it can do at a place, and makes the edit for an action that is chosen. It may
set signals on the way, and it may break down with a text instead of answering.
-/
namespace CodeActions

/-- What comes of asking a provider: the signals it sets in turn, and then its answer, which may be
that it has none, or the text with which it broke down. -/
structure Reply (α : Type) where
  sets : List (Handle × Bool) := []
  outcome : Except String (Option α)

structure Provider where
  name : String
  description : String
  /-- Answers from the provider's own name, the request and the signals. -/
  discover : String → Request → Signals → Reply (List Offer)
  /-- The edit for the action with the given name. An edit is about files only, so the provider's own
  name, which an offer may carry, has no part in it. -/
  edit : Request → String → Signals → Reply Edit

instance : Inhabited Provider := ⟨"", "", fun _ _ _ => ⟨[], .ok none⟩, fun _ _ _ => ⟨[], .ok none⟩⟩

def Provider.listing (p : Provider) : Listing := ⟨p.name, p.description⟩

abbrev Providers : Type := Handle → Provider

def Providers.update (ps : Providers) (h : Handle) (f : Provider → Provider) : Providers :=
  fun k => if k = h then f (ps h) else ps k

@[simp] theorem Providers.update_same (ps : Providers) (h : Handle) (f : Provider → Provider) :
    ps.update h f h = f (ps h) := by
  simp [update]

theorem Providers.update_of_ne (ps : Providers) {h k : Handle} (f : Provider → Provider)
    (hne : k ≠ h) : ps.update h f k = ps k := by
  simp [update, hne]

end CodeActions
