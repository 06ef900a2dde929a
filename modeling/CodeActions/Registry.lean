import CodeActions.Failure
import CodeActions.Notice
import CodeActions.Provider
/-!
# Registries

A registry files providers under the names they had when they were registered. The names are in the
order of their first registration, and a provider registered under a name that is taken moves into
the place of the one that had it.
-/
namespace CodeActions
open Text

structure Registry (π : Type) where
  entries : List (String × π) := []
deriving DecidableEq, Repr

namespace Registry
variable {π : Type}

instance : Inhabited (Registry π) := ⟨{}⟩

def names (r : Registry π) : List String := r.entries.map (·.1)

def toList (r : Registry π) : List π := r.entries.map (·.2)

def find? (r : Registry π) (name : String) : Option π := r.entries.lookup name

def contains (r : Registry π) (name : String) : Bool := (r.find? name).isSome

def size (r : Registry π) : Nat := r.entries.length

def isEmpty (r : Registry π) : Bool := r.entries.isEmpty

/-- Files something under a name: in its place if it is taken, else at the end. -/
def put (name : String) (p : π) : List (String × π) → List (String × π)
  | [] => [(name, p)]
  | (n, q) :: entries => if n = name then (n, p) :: entries else (n, q) :: put name p entries

def insert (r : Registry π) (name : String) (p : π) : Registry π := ⟨put name p r.entries⟩

theorem map_fst_put (name : String) (p : π) (entries : List (String × π)) :
    (put name p entries).map (·.1) =
      if name ∈ entries.map (·.1) then entries.map (·.1) else entries.map (·.1) ++ [name] := by
  induction entries with
  | nil => simp [put]
  | cons e entries ih =>
    obtain ⟨n, q⟩ := e
    by_cases h : n = name
    · simp [put, h]
    · simp only [put, h, if_false, List.map_cons, ih, List.mem_cons, Ne.symm h, false_or]
      split <;> simp

theorem lookup_put (name other : String) (p : π) (entries : List (String × π)) :
    (put name p entries).lookup other =
      if other = name then some p else entries.lookup other := by
  induction entries with
  | nil =>
    by_cases ho : other = name
    · simp [put, ho]
    · simp [put, List.lookup_cons, ho, beq_false_of_ne ho]
  | cons e entries ih =>
    obtain ⟨n, q⟩ := e
    by_cases ho : other = n
    · by_cases h : n = name
      · simp [put, h, ho]
      · simp [put, h, ho]
    · by_cases h : n = name
      · subst h
        simp [put, List.lookup_cons, ho, beq_false_of_ne ho]
      · simp [put, List.lookup_cons, h, beq_false_of_ne ho, ih]

theorem names_insert (r : Registry π) (name : String) (p : π) :
    (r.insert name p).names = if name ∈ r.names then r.names else r.names ++ [name] :=
  map_fst_put name p r.entries

theorem find?_insert (r : Registry π) (name other : String) (p : π) :
    (r.insert name p).find? other = if other = name then some p else r.find? other :=
  lookup_put name other p r.entries

theorem contains_iff_mem_names (r : Registry π) (name : String) :
    r.contains name = true ↔ name ∈ r.names := by
  simp only [contains, find?, names]
  induction r.entries with
  | nil => simp
  | cons e entries ih =>
    obtain ⟨n, q⟩ := e
    by_cases h : name = n
    · simp [h]
    · simp [List.lookup_cons, beq_false_of_ne h, h, ← ih]

theorem mem_names_iff_find? (r : Registry π) (name : String) :
    name ∈ r.names ↔ ∃ p, r.find? name = some p := by
  rw [← contains_iff_mem_names, contains, Option.isSome_iff_exists]

section
variable (look : π → Provider)

/-- Registers a provider under its present name, over any that has it. -/
def register (r : Registry π) (p : π) : Registry π × Notice :=
  let name := (look p).name
  (r.insert name p, match r.find? name with
    | some old => .replaced name (look old).description
    | none => .registered name)

/-- Registers a provider under its present name unless that is taken. -/
def tryRegister (r : Registry π) (p : π) : Except Failure (Registry π × Notice) :=
  let name := (look p).name
  if r.contains name then .error (.duplicateName name)
  else .ok (r.insert name p, .registered name)

def registerAll (r : Registry π) : List π → Registry π × List Notice
  | [] => (r, [])
  | p :: ps =>
      let (r, notice) := r.register look p
      let (r, notices) := r.registerAll ps
      (r, notice :: notices)

/-- What the providers are called now, and how they describe themselves. -/
def listings (r : Registry π) : List Listing := r.toList.map fun p => (look p).listing

def summary (r : Registry π) : String :=
  "Refactor Registry: " ++ toString r.size ++ " refactors\n" ++
    String.join (r.entries.map fun (name, p) =>
      "  - " ++ name ++ " (" ++ (look p).description ++ ")\n")

end

def inspect (r : Registry π) : Inspect :=
  .record "RefactorRegistry" [("refactors", .list (r.names.map .text))] false

end Registry
end CodeActions
