import CodeActions.Proofs.Json.Reading
import CodeActions.Proofs.Json.Shape
/-!
# Reading records

A record is read member by member into slots; `gather` sees the same result field by field
(`readObject_eq_gather`), which no longer depends on the order of the members. From there the
readers are found to read documents as their shapes say (`Reads`).
-/
namespace CodeActions.Json

def Slots.cons {α : Type} {αs : List Type} (slot : Option α) (slots : Slots αs) :
    Slots (α :: αs) := (slot, slots)

private theorem Slots.exists_cons {α : Type} {αs : List Type} (slots : Slots (α :: αs)) :
    ∃ slot rest, slots = .cons slot rest := ⟨slots.1, slots.2, rfl⟩

namespace Field
variable {α : Type}

def settle (f : Field α) (depth : Nat) : Option α → List Tree → Option α
  | none, [] => f.absent
  | none, [t] => (f.read depth t).toOption
  | some a, [] => some a
  | _, _ => none

end Field

namespace Fields
variable {α : Type} {αs : List Type}

private theorem finish_cons (stop : Nat) (f : Field α) (fs : Fields αs) (slot : Option α)
    (slots : Slots αs) :
    finish stop (.cons f fs) (.cons slot slots) = match slot.or f.absent with
      | none => .error ⟨.mismatch (.missingField f.name), stop⟩
      | some a => Row.cons a <$> fs.finish stop slots := rfl

private theorem store_cons (depth : Nat) (name : String) (resume : Nat) (t : Tree) (f : Field α)
    (fs : Fields αs) (slot : Option α) (slots : Slots αs) :
    store depth name resume t (.cons f fs) (.cons slot slots) =
      if f.name = name then
        match slot with
        | some _ => some (.error ⟨.mismatch (.duplicateField name), resume⟩)
        | none => some ((fun a => Slots.cons (some a) slots) <$> f.read depth t)
      else (fun r => Slots.cons slot <$> r) <$> fs.store depth name resume t slots := rfl

theorem readItems_cons (expected : String) (ending : Ending) (depth n : Nat) (f : Field α)
    (fs : Fields αs) (t : Tree) (ts : List Tree) :
    readItems expected ending depth n (.cons f fs) (t :: ts) =
      f.read depth t >>= fun a =>
        fs.readItems expected ending depth (n + 1) ts >>= fun row => .ok (Row.cons a row) := rfl

def named (name : String) (ms : List (Key × Tree)) : List Tree :=
  ms.filterMap fun (key, t) => if key.name.toOption = some name then some t else none

/-- The row of an object seen field by field, given what is in the slots. -/
def gather (depth : Nat) (ms : List (Key × Tree)) :
    {αs : List Type} → Fields αs → Slots αs → Option (Row αs)
  | _, .nil, _ => some ()
  | _, .cons f fs, (slot, slots) => do
      let a ← f.settle depth slot (named f.name ms)
      return .cons a (← gather depth ms fs slots)

private theorem gather_cons (depth : Nat) (ms : List (Key × Tree)) (f : Field α) (fs : Fields αs)
    (slot : Option α) (slots : Slots αs) :
    gather depth ms (.cons f fs) (.cons slot slots) =
      (f.settle depth slot (named f.name ms)).bind fun a =>
        (gather depth ms fs slots).bind fun row => some (.cons a row) := rfl

def foundIn {β : Type} (other : String → Reader (List β)) (depth : Nat) (names : List String) :
    List (Key × Tree) → Option (List β)
  | [] => some []
  | (key, t) :: ms => do
      let name ← key.name.toOption
      if name ∈ names then foundIn other depth names ms
      else do
        let found ← (other name depth t).toOption
        return found ++ (← foundIn other depth names ms)

/-- At the end of an object, a slot that is empty is as good as no member. -/
private theorem finish_eq_gather (depth stop : Nat) (fs : Fields αs) (slots : Slots αs) :
    (fs.finish stop slots).toOption = fs.gather depth [] slots := by
  induction fs with
  | nil => rfl
  | cons f fs ih =>
    obtain ⟨slot, slots, rfl⟩ := slots.exists_cons
    have htail := ih slots
    rw [finish_cons, gather_cons, ← htail]
    have hsettle : f.settle depth slot (named f.name []) = slot.or f.absent := by
      cases slot <;> rfl
    rw [hsettle]
    cases slot.or f.absent with
    | none => rfl
    | some a => cases fs.finish stop slots <;> rfl

private theorem store_eq_none (depth : Nat) {name : String} (resume : Nat) (t : Tree) {fs : Fields αs}
    (hname : name ∉ fs.names) (slots : Slots αs) :
    fs.store depth name resume t slots = none := by
  induction fs with
  | nil => rfl
  | cons f fs ih =>
    obtain ⟨slot, slots, rfl⟩ := slots.exists_cons
    simp only [names, List.mem_cons, not_or] at hname
    rw [store_cons, if_neg (Ne.symm hname.1), ih hname.2]
    rfl

private theorem named_of_ne {key : Key} {name other : String} (hkey : key.name = .ok name)
    (hne : name ≠ other) (t : Tree) (ms : List (Key × Tree)) :
    named other ((key, t) :: ms) = named other ms := by
  simp [named, hkey, Except.toOption, hne]

private theorem named_self {key : Key} {name : String} (hkey : key.name = .ok name) (t : Tree)
    (ms : List (Key × Tree)) : named name ((key, t) :: ms) = t :: named name ms := by
  simp [named, hkey, Except.toOption]

private theorem gather_of_unknown (depth : Nat) {key : Key} {name : String} (hkey : key.name = .ok name)
    (t : Tree) (ms : List (Key × Tree)) {fs : Fields αs} (hname : name ∉ fs.names)
    (slots : Slots αs) : fs.gather depth ((key, t) :: ms) slots = fs.gather depth ms slots := by
  induction fs with
  | nil => rfl
  | cons f fs ih =>
    obtain ⟨slot, slots, rfl⟩ := slots.exists_cons
    simp only [names, List.mem_cons, not_or] at hname
    rw [gather_cons, gather_cons, named_of_ne hkey hname.1, ih hname.2]

private theorem gather_of_known (depth : Nat) {key : Key} {name : String} (hkey : key.name = .ok name)
    (resume : Nat) (t : Tree) (ms : List (Key × Tree)) {fs : Fields αs}
    (hnodup : fs.names.Nodup) (hname : name ∈ fs.names) (slots : Slots αs) :
    ∃ r, fs.store depth name resume t slots = some r ∧
      fs.gather depth ((key, t) :: ms) slots = r.toOption.bind (fs.gather depth ms) := by
  induction fs with
  | nil => cases hname
  | cons f fs ih =>
    obtain ⟨slot, slots, rfl⟩ := slots.exists_cons
    obtain ⟨hfresh, hnodup⟩ := List.nodup_cons.mp hnodup
    rw [store_cons, gather_cons]
    by_cases hf : f.name = name
    · subst hf
      rw [if_pos rfl, named_self hkey, gather_of_unknown depth hkey t ms hfresh]
      cases slot with
      | some a =>
        refine ⟨_, rfl, ?_⟩
        cases named f.name ms <;> rfl
      | none =>
        refine ⟨_, rfl, ?_⟩
        rw [toOption_map]
        cases hread : f.read depth t with
        | error fault =>
          cases hnamed : named f.name ms <;> simp [Field.settle, hread, Except.toOption]
        | ok a =>
          cases hnamed : named f.name ms <;>
            simp [Field.settle, hread, Except.toOption, gather_cons, hnamed]
    · have hmem : name ∈ fs.names := by
        simpa [names, Ne.symm hf] using hname
      obtain ⟨r, hr, hgather⟩ := ih hnodup hmem slots
      rw [if_neg hf, hr, named_of_ne hkey (Ne.symm hf), hgather]
      refine ⟨_, rfl, ?_⟩
      rw [toOption_map]
      cases r with
      | error fault => simp [Except.toOption]
      | ok slots => simp [Except.toOption, gather_cons]

section
variable {β : Type} (other : String → Reader (List β)) (depth : Nat)

private theorem readMembers_cons {key : Key} {name : String} (hkey : key.name = .ok name) (t : Tree)
    (ms : List (Key × Tree)) (fs : Fields αs) (slots : Slots αs) :
    fs.readMembers other depth slots ((key, t) :: ms) =
      match fs.store depth name key.resume t slots with
      | some r => r >>= fun slots => fs.readMembers other depth slots ms
      | none => other name depth t >>= fun found =>
          (fun (slots, rest) => (slots, found ++ rest)) <$>
            fs.readMembers other depth slots ms := by
  rw [readMembers, hkey]
  simp only [bind, Except.bind]
  cases fs.store depth name key.resume t slots with
  | some r => rfl
  | none =>
    cases other name depth t with
    | error fault => rfl
    | ok found => cases fs.readMembers other depth slots ms <;> rfl

private theorem readMembers_eq_gather (fs : Fields αs) (hnodup : fs.names.Nodup) (stop : Nat)
    (ms : List (Key × Tree)) (slots : Slots αs) :
    (fs.readMembers other depth slots ms).toOption.bind
        (fun (slots, found) => (·, found) <$> (fs.finish stop slots).toOption) =
      (fs.gather depth ms slots).bind fun row =>
        (foundIn other depth fs.names ms).bind fun found => some (row, found) := by
  induction ms generalizing slots with
  | nil =>
    rw [← finish_eq_gather depth stop, readMembers, foundIn]
    cases hfinish : fs.finish stop slots <;> simp [Except.toOption, hfinish]
  | cons m ms ih =>
    obtain ⟨key, t⟩ := m
    cases hkey : key.name with
    | error fault =>
      simp [readMembers, foundIn, hkey, Except.toOption, bind, Except.bind]
    | ok name =>
      rw [readMembers_cons other depth hkey]
      have hfound : foundIn other depth fs.names ((key, t) :: ms) =
          if name ∈ fs.names then foundIn other depth fs.names ms
          else (other name depth t).toOption.bind fun found =>
            (foundIn other depth fs.names ms).bind fun rest => some (found ++ rest) := by
        rw [foundIn, hkey]
        rfl
      rw [hfound]
      by_cases hname : name ∈ fs.names
      · obtain ⟨r, hr, hgather⟩ :=
          gather_of_known depth hkey key.resume t ms hnodup hname slots
        rw [hr, hgather, if_pos hname]
        cases r with
        | error fault => rfl
        | ok slots => exact ih slots
      · rw [store_eq_none depth key.resume t hname, gather_of_unknown depth hkey t ms hname,
          if_neg hname]
        cases hother : other name depth t with
        | error fault => simp [Except.toOption, bind, Except.bind]
        | ok found =>
          have hrest := congrArg (Option.map fun r => (r.1, found ++ r.2)) (ih slots)
          rw [Option.map_bind, Option.map_bind] at hrest
          calc _ = (fs.readMembers other depth slots ms).toOption.bind fun r =>
                (·, found ++ r.2) <$> (fs.finish stop r.1).toOption := by
                cases fs.readMembers other depth slots ms <;> rfl
            _ = _ := by
                simpa [Function.comp_def, Option.map_bind, Option.bind_assoc, Except.toOption]
                  using hrest

theorem readObject_eq_gather (fs : Fields αs) (hnodup : fs.names.Nodup) (stop : Nat)
    (ms : List (Key × Tree)) :
    (fs.readObject other depth ms (.closed stop)).toOption =
      (fs.gather depth ms fs.empty).bind fun row =>
        (foundIn other depth fs.names ms).bind fun found => some (row, found) := by
  rw [← readMembers_eq_gather other depth fs hnodup stop]
  unfold readObject
  cases fs.readMembers other depth fs.empty ms with
  | error fault => rfl
  | ok result =>
    obtain ⟨slots, found⟩ := result
    cases hfinish : fs.finish stop slots with
    | error fault => simp [Ending.read, hfinish, Except.toOption, bind, Except.bind]
    | ok row => simp [Ending.read, hfinish, Except.toOption, bind, Except.bind, pure, Except.pure]

/-- What is found in an object is found in its members of other names. -/
theorem forall_found_of_readMembers {Q : β → Prop} (fs : Fields αs) (hnodup : fs.names.Nodup)
    {ms : List (Key × Tree)}
    (hother : ∀ m ∈ ms, ∀ name ∉ fs.names, ∀ found, other name depth m.2 = .ok found →
      ∀ b ∈ found, Q b)
    {slots last : Slots αs} {found : List β}
    (h : fs.readMembers other depth slots ms = .ok (last, found)) : ∀ b ∈ found, Q b := by
  induction ms generalizing slots found with
  | nil =>
    cases h
    exact List.forall_mem_nil _
  | cons m ms ih =>
    obtain ⟨key, t⟩ := m
    obtain ⟨hfirst, hrest⟩ := List.forall_mem_cons.mp hother
    cases hkey : key.name with
    | error fault =>
      rw [readMembers, hkey] at h
      cases h
    | ok name =>
      rw [readMembers_cons other depth hkey] at h
      by_cases hname : name ∈ fs.names
      · obtain ⟨r, hr, -⟩ := gather_of_known depth hkey key.resume t ms hnodup hname slots
        rw [hr] at h
        obtain ⟨next, -, h⟩ := exists_of_bind h
        exact ih hrest h
      · rw [store_eq_none depth key.resume t hname] at h
        obtain ⟨here, hhere, h⟩ := exists_of_bind h
        obtain ⟨⟨_, rest⟩, hread, heq⟩ := exists_of_map h
        cases heq
        intro b hb
        rcases List.mem_append.mp hb with hb | hb
        · exact hfirst name hname here hhere b hb
        · exact ih hrest hread b hb

end
end Fields
end CodeActions.Json
