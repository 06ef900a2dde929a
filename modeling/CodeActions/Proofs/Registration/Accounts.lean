import CodeActions.Proofs.Registration.Isolation
import CodeActions.Proofs.Registration.Strict
import CodeActions.Provider.Script
import Mathlib.Algebra.GroupWithZero.Nat
/-!
# Accounts of registrations

Whoever is registered is told of in one notice: that a name is new, or that someone was replaced.
What is told of the steps that build a registry accounts for it (`notices_account_for_registry`).
Bulk registrations are taken apart first (`run_parts`, `told_parts`, `filed_parts`), so that there is
one registry before each notice.
-/
namespace CodeActions

namespace Notice

def registered? : Notice → Option String
  | .registered name => some name
  | _ => none

def replaced? : Notice → Option (String × String)
  | .replaced name description => some (name, description)
  | _ => none

end Notice

def Answer.isRefusal : Answer → Bool
  | .registered _ failure => failure.isSome
  | _ => false

private theorem Event.notices_map (ns : List Notice) : Event.notices (ns.map .notice) = ns := by
  unfold notices
  rw [List.filterMap_map]
  exact List.filterMap_some

namespace Step

/-- The step, with each of several registrations as a step of its own. -/
def parts : Step → List Step
  | .extend h ps => ps.map (.register h)
  | .collect h ps => .new h :: ps.map (.register h)
  | step => [step]

def filed (h : Handle) (answer : Answer) : Step → Nat
  | .register k _ => if k = h then 1 else 0
  | .extend k ps | .collect k ps => if k = h then ps.length else 0
  | .tryRegister k _ => if k = h ∧ answer.isRefusal = false then 1 else 0
  | _ => 0

private theorem filed_of_builds {h : Handle} {step : Step} (hother : step.builds ≠ some h)
    (answer : Answer) : step.filed h answer = 0 := by
  have hne {k : Handle} (hk : some k ≠ some h) : k ≠ h := fun heq => hk (congrArg some heq)
  cases step with
  | register k p | extend k ps | collect k ps => exact if_neg (hne hother)
  | tryRegister k p => exact if_neg fun hk => hne hother hk.1
  | _ => rfl

def IsSingle (step : Step) : Prop := step.parts = [step]

private theorem isSingle_of_mem_parts {step part : Step} (hpart : part ∈ step.parts) : part.IsSingle := by
  cases step with
  | extend h ps =>
    obtain ⟨p, -, rfl⟩ := List.mem_map.mp hpart
    rfl
  | collect h ps =>
    rcases List.mem_cons.mp hpart with rfl | hpart
    · rfl
    · obtain ⟨p, -, rfl⟩ := List.mem_map.mp hpart
      rfl
  | _ =>
    obtain rfl := List.mem_singleton.mp hpart
    rfl

private theorem restarts_of_mem_parts {h : Handle} {step part : Step} (hkeep : step.restarts h = false)
    (hpart : part ∈ step.parts) : part.restarts h = false := by
  cases step with
  | extend k ps =>
    obtain ⟨p, -, rfl⟩ := List.mem_map.mp hpart
    rfl
  | collect k ps =>
    rcases List.mem_cons.mp hpart with rfl | hpart
    · exact hkeep
    · obtain ⟨p, -, rfl⟩ := List.mem_map.mp hpart
      rfl
  | _ =>
    obtain rfl := List.mem_singleton.mp hpart
    exact hkeep

end Step

namespace Session

private theorem withRegistry_withRegistry (s : Session) (h : Handle) (r r' : Registry Handle) :
    (s.withRegistry h r).withRegistry h r' = s.withRegistry h r' := by
  unfold withRegistry
  congr 1
  funext k
  by_cases hk : k = h <;> simp [hk]

def trace (s : Session) (steps : List Step) : List (Step × Outcome) := steps.zip (s.run steps).1

/-- What is told of the steps that build a registry. -/
def told (s : Session) (h : Handle) (steps : List Step) : List Notice :=
  (s.trace steps).flatMap fun (step, outcome) =>
    if step.builds = some h then Event.notices outcome.events else []

def filed (s : Session) (h : Handle) (steps : List Step) : Nat :=
  ((s.trace steps).map fun (step, outcome) => step.filed h outcome.answer).sum

section
variable (s : Session) (h : Handle)

private theorem trace_append (steps more : List Step) :
    s.trace (steps ++ more) = s.trace steps ++ (s.run steps).2.trace more := by
  induction steps generalizing s with
  | nil => rfl
  | cons step steps ih => exact congrArg _ (ih (s.step step).2)

private theorem told_append (steps more : List Step) :
    s.told h (steps ++ more) = s.told h steps ++ (s.run steps).2.told h more := by
  rw [told, trace_append, List.flatMap_append]
  rfl

private theorem filed_append (steps more : List Step) :
    s.filed h (steps ++ more) = s.filed h steps + (s.run steps).2.filed h more := by
  rw [filed, trace_append, List.map_append, List.sum_append]
  rfl

private theorem told_singleton (step : Step) :
    s.told h [step] =
      if step.builds = some h then Event.notices (s.step step).1.events else [] :=
  List.append_nil _

private theorem filed_singleton (step : Step) :
    s.filed h [step] = step.filed h (s.step step).1.answer :=
  Nat.add_zero _

private theorem told_register (k p : Handle) :
    s.told h [.register k p] =
      if k = h then [((s.registries k).register s.providers p).2] else [] := by
  rw [told_singleton]
  exact if_congr Option.some_inj rfl rfl

private theorem run_registers (k : Handle) (ps : List Handle) :
    (s.run (ps.map (.register k))).2 =
      s.withRegistry k ((s.registries k).registerAll s.providers ps).1 := by
  induction ps generalizing s with
  | nil => exact (withRegistry_self s k).symm
  | cons p ps ih =>
    rw [List.map_cons, run_cons_snd, ih, step_register, withRegistry_same,
      withRegistry_withRegistry]
    rfl

private theorem told_registers (k : Handle) (ps : List Handle) :
    s.told h (ps.map (.register k)) =
      if k = h then ((s.registries k).registerAll s.providers ps).2 else [] := by
  induction ps generalizing s with
  | nil => exact (ite_self _).symm
  | cons p ps ih =>
    rw [List.map_cons, ← List.singleton_append, told_append, told_register, ih, run_cons_snd,
      run_nil, step_register, withRegistry_same]
    split <;> rfl

private theorem filed_registers (k : Handle) (ps : List Handle) :
    s.filed h (ps.map (.register k)) = if k = h then ps.length else 0 := by
  induction ps generalizing s with
  | nil => exact (ite_self _).symm
  | cons p ps ih =>
    rw [List.map_cons, ← List.singleton_append, filed_append, filed_singleton, ih, Step.filed,
      List.length_cons]
    split <;> omega

private theorem step_new (k : Handle) : (s.step (.new k)).2 = s.withRegistry k {} := rfl

theorem run_parts (step : Step) : (s.run step.parts).2 = (s.step step).2 := by
  cases step with
  | extend k ps => exact s.run_registers k ps
  | collect k ps =>
    rw [Step.parts, run_cons_snd, run_registers, step_new, withRegistry_same,
      withRegistry_withRegistry]
    rfl
  | _ => rfl

private theorem told_new (k : Handle) : s.told h [.new k] = [] :=
  (s.told_singleton h _).trans (ite_self _)

theorem told_parts (step : Step) : s.told h step.parts = s.told h [step] := by
  cases step with
  | extend k ps =>
    rw [Step.parts, told_registers, told_singleton]
    exact (if_congr Option.some_inj (Event.notices_map _) rfl).symm
  | collect k ps =>
    rw [Step.parts, ← List.singleton_append, told_append, told_new, List.nil_append, run_cons_snd,
      run_nil, step_new, told_registers, withRegistry_same, told_singleton]
    exact (if_congr Option.some_inj (Event.notices_map _) rfl).symm
  | _ => rfl

theorem filed_parts (step : Step) : s.filed h step.parts = s.filed h [step] := by
  cases step with
  | extend k ps => rw [Step.parts, filed_registers, filed_singleton, Step.filed]
  | collect k ps =>
    rw [Step.parts, ← List.singleton_append, filed_append, filed_registers, filed_singleton,
      filed_singleton]
    exact Nat.zero_add _
  | _ => rfl

private theorem account_parts (steps : List Step) :
    (s.run (steps.flatMap Step.parts)).2 = (s.run steps).2 ∧
      s.told h (steps.flatMap Step.parts) = s.told h steps ∧
      s.filed h (steps.flatMap Step.parts) = s.filed h steps := by
  induction steps generalizing s with
  | nil => exact ⟨rfl, rfl, rfl⟩
  | cons step steps ih =>
    obtain ⟨hrun, htold, hfiled⟩ := ih (s.step step).2
    rw [List.flatMap_cons, run_append_snd, told_append, filed_append, run_parts, told_parts,
      filed_parts, hrun, htold, hfiled]
    exact ⟨rfl, (s.told_append h [step] steps).symm, (s.filed_append h [step] steps).symm⟩

end

/-- What a step does to a registry that it does not begin anew, and what is told of it. -/
inductive Accounts (s : Session) (h : Handle) (step : Step) : Prop
  | fresh (p : Handle) (hfree : (s.providers p).name ∉ (s.registries h).names)
      (hregistry : (s.step step).2.registries h =
        (s.registries h).insert (s.providers p).name p)
      (htold : s.told h [step] = [.registered (s.providers p).name])
      (hfiled : s.filed h [step] = 1)
  | instead (p q : Handle) (hstep : step = .register h p)
      (hfind : (s.registries h).find? (s.providers p).name = some q)
      (htold : s.told h [step] = [.replaced (s.providers p).name (s.providers q).description])
      (hfiled : s.filed h [step] = 1)
  | nothing (hregistry : (s.step step).2.registries h = s.registries h)
      (htold : s.told h [step] = []) (hfiled : s.filed h [step] = 0)

variable {s : Session} {h : Handle}

private theorem accounts_register (s : Session) (h p : Handle) : s.Accounts h (.register h p) := by
  have htold := s.told_register h h p
  have hfiled : s.filed h [.register h p] = 1 := (s.filed_singleton h _).trans (if_pos rfl)
  rw [if_pos rfl] at htold
  cases hfind : (s.registries h).find? (s.providers p).name with
  | none =>
    have hfree : (s.providers p).name ∉ (s.registries h).names := by
      rw [Registry.mem_names_iff_find?, hfind]
      simp
    refine .fresh p hfree ?_ ?_ hfiled
    · rw [step_register, withRegistry_same]
    · rw [htold, Registry.register, hfind]
  | some q =>
    refine .instead p q rfl hfind ?_ hfiled
    rw [htold, Registry.register, hfind]

private theorem accounts_tryRegister (s : Session) (h p : Handle) : s.Accounts h (.tryRegister h p) := by
  by_cases htaken : (s.providers p).name ∈ (s.registries h).names
  · have hstep := step_tryRegister_eq_of_taken htaken
    refine .nothing ?_ ?_ ?_
    · rw [hstep]
    · rw [told_singleton, hstep]
      exact if_pos rfl
    · rw [filed_singleton, hstep]
      exact if_neg fun hk => Bool.noConfusion hk.2
  · have hstep := step_tryRegister_eq_of_free htaken
    refine .fresh p htaken ?_ ?_ ?_
    · rw [hstep, step_register, withRegistry_same]
    · rw [told_singleton, hstep, events_register_of_free htaken]
      exact if_pos rfl
    · rw [filed_singleton, hstep]
      exact if_pos ⟨rfl, rfl⟩

private theorem accounts_of_isSingle {step : Step} (hsingle : step.IsSingle)
    (hkeep : step.restarts h = false) : s.Accounts h step := by
  by_cases hbuilds : step.builds = some h
  · cases step with
    | register k p =>
      obtain rfl := Option.some_inj.mp hbuilds
      exact s.accounts_register k p
    | tryRegister k p =>
      obtain rfl := Option.some_inj.mp hbuilds
      exact s.accounts_tryRegister k p
    | extend k ps => rcases ps with _ | ⟨p, _ | ⟨q, ps⟩⟩ <;> cases hsingle
    | new k | collect k ps | clone k source =>
      obtain rfl := Option.some_inj.mp hbuilds
      exact absurd (beq_self_eq_true k) (Bool.not_eq_true _ ▸ hkeep)
    | _ => cases hbuilds
  · refine .nothing (registries_step fun h => absurd h hbuilds) ?_ ?_
    · rw [told_singleton, if_neg hbuilds]
    · rw [filed_singleton, Step.filed_of_builds hbuilds]

theorem Accounts.names {step : Step} (hstep : s.Accounts h step) :
    ((s.step step).2.registries h).names =
      (s.registries h).names ++ (s.told h [step]).filterMap Notice.registered? := by
  cases hstep with
  | fresh p hfree hregistry htold hfiled =>
    rw [hregistry, htold, Registry.names_insert, if_neg hfree]
    rfl
  | instead p q hstep hfind htold hfiled =>
    have htaken := ((s.registries h).mem_names_iff_find? _).mpr ⟨q, hfind⟩
    rw [htold, hstep, step_register, withRegistry_same, Registry.names_insert, if_pos htaken]
    exact (List.append_nil _).symm
  | nothing hregistry htold hfiled =>
    rw [hregistry, htold]
    exact (List.append_nil _).symm

theorem Accounts.filed {step : Step} (hstep : s.Accounts h step) :
    s.filed h [step] = ((s.told h [step]).filterMap Notice.registered?).length +
      ((s.told h [step]).filterMap Notice.replaced?).length := by
  cases hstep with
  | fresh p hfree hregistry htold hfiled =>
    rw [hfiled, htold]
    rfl
  | instead p q hstep hfind htold hfiled =>
    rw [hfiled, htold]
    rfl
  | nothing hregistry htold hfiled =>
    rw [hfiled, htold]
    rfl

private theorem told_cons (s : Session) (h : Handle) (step : Step) (steps : List Step) :
    s.told h (step :: steps) = s.told h [step] ++ (s.step step).2.told h steps :=
  s.told_append h [step] steps

section
variable {steps : List Step} (hsteps : ∀ step ∈ steps, step.IsSingle ∧ step.restarts h = false)
include hsteps

private theorem names_eq_told : ((s.run steps).2.registries h).names =
    (s.registries h).names ++ (s.told h steps).filterMap Notice.registered? := by
  induction steps generalizing s with
  | nil => exact (List.append_nil _).symm
  | cons step steps ih =>
    obtain ⟨⟨hsingle, hkeep⟩, hsteps⟩ := List.forall_mem_cons.mp hsteps
    rw [run_cons_snd, ih hsteps, (accounts_of_isSingle hsingle hkeep).names,
      s.told_cons h step steps, List.filterMap_append, List.append_assoc]

private theorem filed_eq_told : s.filed h steps =
    ((s.told h steps).filterMap Notice.registered?).length +
      ((s.told h steps).filterMap Notice.replaced?).length := by
  induction steps generalizing s with
  | nil => rfl
  | cons step steps ih =>
    obtain ⟨⟨hsingle, hkeep⟩, hsteps⟩ := List.forall_mem_cons.mp hsteps
    have hfirst := (accounts_of_isSingle (s := s) hsingle hkeep).filed
    have hrest := ih (s := (s.step step).2) hsteps
    have hfiled : s.filed h (step :: steps) =
        s.filed h [step] + (s.step step).2.filed h steps := s.filed_append h [step] steps
    rw [hfiled, hfirst, hrest, s.told_cons h step steps, List.filterMap_append,
      List.filterMap_append, List.length_append, List.length_append]
    exact Nat.add_add_add_comm ..

private theorem exists_replaced_of_told {earlier later : List Notice} {name description : String}
    (htold : s.told h steps = earlier ++ .replaced name description :: later) :
    ∃ before p q after, steps = before ++ .register h p :: after ∧ s.told h before = earlier ∧
      ((s.run before).2.providers p).name = name ∧
      ((s.run before).2.registries h).find? name = some q ∧
      ((s.run before).2.providers q).description = description := by
  induction steps generalizing s earlier with
  | nil => simp [told, trace] at htold
  | cons step steps ih =>
    obtain ⟨⟨hsingle, hkeep⟩, hsteps⟩ := List.forall_mem_cons.mp hsteps
    have hlater {earlier' : List Notice}
        (hrest : (s.step step).2.told h steps = earlier' ++ .replaced name description :: later)
        (hearlier : earlier = s.told h [step] ++ earlier') :
        ∃ before p q after, step :: steps = before ++ .register h p :: after ∧
          s.told h before = earlier ∧ ((s.run before).2.providers p).name = name ∧
          ((s.run before).2.registries h).find? name = some q ∧
          ((s.run before).2.providers q).description = description := by
      obtain ⟨before, p, q, after, rfl, hbefore, hnow⟩ := ih hsteps hrest
      refine ⟨step :: before, p, q, after, rfl, ?_, hnow⟩
      rw [told_cons, hbefore, hearlier]
    rw [told_cons] at htold
    cases accounts_of_isSingle hsingle hkeep (s := s) with
    | fresh p hfree hregistry hstep hfiled =>
      rw [hstep] at htold hlater
      rcases earlier with _ | ⟨n, earlier⟩
      · cases htold
      · obtain ⟨rfl, hrest⟩ := List.cons_eq_cons.mp htold
        exact hlater hrest rfl
    | instead p q hregister hfind hstep hfiled =>
      rw [hstep] at htold hlater
      rcases earlier with _ | ⟨n, earlier⟩
      · cases htold
        exact ⟨[], p, q, steps, by rw [hregister]; rfl, rfl, rfl, hfind, rfl⟩
      · obtain ⟨rfl, hrest⟩ := List.cons_eq_cons.mp htold
        exact hlater hrest rfl
    | nothing hregistry hstep hfiled =>
      rw [hstep] at htold hlater
      exact hlater htold rfl

end

private theorem exists_singles {start : Step} (hstart : start = .new h ∨ ∃ ps, start = .collect h ps)
    {steps : List Step} (hkeep : ∀ step ∈ steps, step.restarts h = false) :
    ∃ singles, (start :: steps).flatMap Step.parts = .new h :: singles ∧
      ∀ step ∈ singles, step.IsSingle ∧ step.restarts h = false := by
  have hsteps : ∀ step ∈ steps.flatMap Step.parts, step.IsSingle ∧ step.restarts h = false := by
    intro part hpart
    obtain ⟨step, hstep, hpart⟩ := List.mem_flatMap.mp hpart
    exact ⟨Step.isSingle_of_mem_parts hpart,
      Step.restarts_of_mem_parts (hkeep step hstep) hpart⟩
  rcases hstart with rfl | ⟨ps, rfl⟩
  · exact ⟨_, rfl, hsteps⟩
  · refine ⟨ps.map (.register h) ++ steps.flatMap Step.parts, rfl, ?_⟩
    refine List.forall_mem_append.mpr ⟨?_, hsteps⟩
    intro step hstep
    obtain ⟨p, -, rfl⟩ := List.mem_map.mp hstep
    exact ⟨rfl, rfl⟩

/-- What is told of the steps that build a registry accounts for it, from the step with which it
begins. Its names are the ones that are told to be new, in this order, and so are as many. Every
registration is told once, if it is not refused. Whoever is told to be replaced was found under the
name just before, when the notices so far had been given and bulk registrations had come so far; and
the description that is told is the one he had at this moment. -/
theorem notices_account_for_registry (s : Session) (h : Handle) {start : Step}
    (hstart : start = .new h ∨ ∃ ps, start = .collect h ps) {steps : List Step}
    (hkeep : ∀ step ∈ steps, step.restarts h = false) :
    let all := start :: steps
    let singles := all.flatMap Step.parts
    let registry := (s.run all).2.registries h
    let told := s.told h all
    registry.size = (told.filterMap Notice.registered?).length ∧
    s.filed h all =
      (told.filterMap Notice.registered?).length + (told.filterMap Notice.replaced?).length ∧
    registry.names = told.filterMap Notice.registered? ∧
    ((s.run singles).2 = (s.run all).2 ∧ s.told h singles = told) ∧
    ∀ earlier name description later, told = earlier ++ .replaced name description :: later →
      ∃ before p q after, singles = before ++ .register h p :: after ∧ s.told h before = earlier ∧
        let t := (s.run before).2
        (t.providers p).name = name ∧ (t.registries h).find? name = some q ∧
          (t.providers q).description = description := by
  intro all singles registry told
  obtain ⟨rest, hrest, hsingle⟩ := exists_singles hstart hkeep
  obtain ⟨hrun, htold, hfiled⟩ := s.account_parts h all
  let begun := (s.step (.new h)).2
  have hempty : begun.registries h = {} := withRegistry_same s h {}
  have htold' : told = begun.told h rest :=
    calc told = s.told h (.new h :: rest) := by rw [← hrest]; exact htold.symm
      _ = begun.told h rest := by rw [told_cons, told_new]; rfl
  have hfiled' : s.filed h all = begun.filed h rest :=
    calc s.filed h all = s.filed h (.new h :: rest) := by rw [← hrest]; exact hfiled.symm
      _ = begun.filed h rest := Nat.zero_add _
  have hregistry : registry = (begun.run rest).2.registries h := by
    change (s.run all).2.registries h = _
    rw [← hrun, hrest]
    rfl
  have hnames : registry.names = told.filterMap Notice.registered? := by
    rw [hregistry, names_eq_told hsingle, hempty, htold']
    rfl
  refine ⟨?_, ?_, hnames, ⟨hrun, htold⟩, ?_⟩
  · rw [← hnames]
    exact (List.length_map _).symm
  · rw [hfiled', htold']
    exact filed_eq_told hsingle
  · intro earlier name description later hreplaced
    rw [htold'] at hreplaced
    obtain ⟨before, p, q, after, rfl, hbefore, hnow⟩ := exists_replaced_of_told hsingle hreplaced
    refine ⟨.new h :: before, p, q, after, hrest, ?_, hnow⟩
    rw [told_cons, told_new]
    exact hbefore

/-- A registry that is collected, whose provider then describes himself in another way, is refused,
and is at last replaced by himself in the course of a bulk registration. -/
theorem notices_account_for_redescribed :
    let s := opening (fun h => ({} : Script).provider h h) fun _ => .flag false
    let start : Step := .collect "a" ["p"]
    let steps : List Step :=
      [.redescribe "p" "new", .tryRegister "a" "p", .extend "a" ["q", "p"]]
    let told := s.told "a" (start :: steps)
    (∀ step ∈ steps, step.restarts "a" = false) ∧
    told = [.registered "p", .registered "q", .replaced "p" "new"] ∧
    s.filed "a" (start :: steps) = 3 ∧
    ((s.run (start :: steps)).2.registries "a").names = ["p", "q"] := by
  intro s start steps told
  have hstart : start = .new "a" ∨ ∃ ps, start = .collect "a" ps := .inr ⟨["p"], rfl⟩
  have hkeep : ∀ step ∈ steps, step.restarts "a" = false := by decide
  have htold : told = [.registered "p", .registered "q", .replaced "p" "new"] := by decide
  obtain ⟨-, hfiled, hnames, -⟩ := notices_account_for_registry s "a" hstart hkeep
  rw [show s.told "a" (start :: steps) = _ from htold] at hfiled hnames
  exact ⟨hkeep, htold, hfiled, hnames⟩

end Session
end CodeActions
