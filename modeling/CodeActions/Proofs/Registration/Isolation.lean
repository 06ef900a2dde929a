import CodeActions.Session
import CodeActions.Provider.Script
/-!
# Isolation of registries

Registries share providers and signals and nothing else. A registry changes by the steps that build
it (`registries_run`), and what it answers depends on its own slots, the providers and the signals
(`step_on_congr`). A copy thus answers as its source does until more is registered in one of them.
-/
namespace CodeActions

namespace Step

/-- The registry that a step fills, replaces or tries to fill. -/
def builds : Step → Option Handle
  | .new h | .register h _ | .tryRegister h _ | .extend h _ | .collect h _ | .clone h _ => some h
  | .rename .. | .redescribe .. | .set .. | .polls .. | .query .. | .discover .. | .edits ..
  | .resolve .. => none

def revise (ps : Providers) : Step → Providers
  | .rename p name => ps.update p ({ · with name })
  | .redescribe p description => ps.update p ({ · with description })
  | .new .. | .register .. | .tryRegister .. | .extend .. | .collect .. | .clone .. | .set ..
  | .polls .. | .query .. | .discover .. | .edits .. | .resolve .. => ps

private theorem description_revise {ps : Providers} {step : Step} {p : Handle}
    (hkeep : ∀ description, step ≠ .redescribe p description) :
    (step.revise ps p).description = (ps p).description := by
  cases step with
  | rename q name =>
    by_cases hq : p = q
    · simp [revise, hq]
    · rw [revise, Providers.update_of_ne _ _ hq]
  | redescribe q description =>
    have hq : p ≠ q := by
      rintro rfl
      exact hkeep description rfl
    rw [revise, Providers.update_of_ne _ _ hq]
  | _ => rfl

end Step

inductive Ask where
  | query (q : Query)
  | discover (r : Request)
  | edits (r : Request) (name action : String)
  | resolve (r : Request) (name action : String)

def Ask.on (h : Handle) : Ask → Step
  | .query q => .query h q
  | .discover r => .discover h r
  | .edits r name action => .edits h r name action
  | .resolve r name action => .resolve h r name action

private theorem Registry.notice_register_of_taken {r : Registry Handle} {ps : Providers} {p q : Handle}
    (htaken : r.find? (ps q).name = some p) :
    (r.register ps q).2 = .replaced (ps q).name (ps p).description := by
  simp only [register, htaken]

namespace Session
variable {s t : Session} {h k p : Handle}

private theorem providers_step (s : Session) (step : Step) :
    (s.step step).2.providers = step.revise s.providers := by
  cases step with
  | tryRegister h p =>
    simp only [Session.step]
    split <;> rfl
  | _ => rfl

private theorem description_run {steps : List Step} (hkeep : ∀ d, .redescribe p d ∉ steps) :
    ((s.run steps).2.providers p).description = (s.providers p).description := by
  induction steps generalizing s with
  | nil => rfl
  | cons step steps ih =>
    simp only [List.mem_cons, not_or] at hkeep
    rw [run_cons_snd, ih fun d => (hkeep d).2, providers_step]
    exact Step.description_revise fun d => Ne.symm (hkeep d).1

def Refuses (s : Session) (step : Step) : Prop :=
  ∃ names failure, (s.step step).1.answer = .registered names (some failure)

/-- Whether steps register nothing in a registry: they build other ones, or are refused. -/
def Spares (h : Handle) : Session → List Step → Prop
  | _, [] => True
  | s, step :: steps => (step.builds = some h → s.Refuses step) ∧ (s.step step).2.Spares h steps

private theorem spares_of_builds {steps : List Step} (hother : ∀ step ∈ steps, step.builds ≠ some h) :
    s.Spares h steps := by
  induction steps generalizing s with
  | nil => trivial
  | cons step steps ih =>
    obtain ⟨hstep, hsteps⟩ := List.forall_mem_cons.mp hother
    exact ⟨fun hbuilds => absurd hbuilds hstep, ih hsteps⟩

private theorem step_of_refuses {step : Step} (hrefused : s.Refuses step) : (s.step step).2 = s := by
  obtain ⟨names, failure, hanswer⟩ := hrefused
  cases step with
  | tryRegister k p =>
    simp only [Session.step] at hanswer ⊢
    split at hanswer
    case h_1 => cases hanswer
    case h_2 => rfl
  | query k q => cases q <;> cases hanswer
  | discover k r =>
    simp only [Session.step, finish] at hanswer
    split at hanswer <;> cases hanswer
  | edits k r name action =>
    simp only [Session.step, finish] at hanswer
    split at hanswer <;> cases hanswer
  | resolve k r name action =>
    simp only [Session.step, finish] at hanswer
    split at hanswer
    · split at hanswer <;> cases hanswer
    · cases hanswer
  | _ => cases hanswer

theorem registries_step {step : Step} (hspares : step.builds = some h → s.Refuses step) :
    (s.step step).2.registries h = s.registries h := by
  by_cases hbuilds : step.builds = some h
  · rw [step_of_refuses (hspares hbuilds)]
  · have hother (k : Handle) (r : Registry Handle) (hk : some k ≠ some h) :
        (s.withRegistry k r).registries h = s.registries h :=
      withRegistry_of_ne s r fun heq => hk (congrArg some heq.symm)
    cases step with
    | new k => exact hother k _ hbuilds
    | register k p => exact hother k _ hbuilds
    | tryRegister k p =>
      simp only [Session.step]
      split
      · exact hother k _ hbuilds
      · rfl
    | extend k ps => exact hother k _ hbuilds
    | collect k ps => exact hother k _ hbuilds
    | clone k source => exact hother k _ hbuilds
    | rename | redescribe | set | polls | query | discover | edits | resolve => rfl

theorem registries_run {steps : List Step} (hspares : s.Spares h steps) :
    (s.run steps).2.registries h = s.registries h := by
  induction steps generalizing s with
  | nil => rfl
  | cons step steps ih => rw [run_cons_snd, ih hspares.2, registries_step hspares.1]

/-- What comes of asking a registry depends on its slots, the providers and the signals alone. -/
theorem step_on_congr (hregistry : s.registries h = t.registries k)
    (hproviders : s.providers = t.providers) (hsignals : s.signals = t.signals) (ask : Ask) :
    (s.step (ask.on h)).1 = (t.step (ask.on k)).1 ∧
      (s.step (ask.on h)).2.signals = (t.step (ask.on k)).2.signals := by
  cases ask <;>
    simp only [Ask.on, Session.step, finish, hregistry, hproviders, hsignals, and_self]

/-- Registries are isolated from each other. Whatever happens, a registry keeps its names, their
order and the provider under each of them unless a step builds that very registry. A copy and its
source answer alike, with the same calls and events, as long as nothing more is registered in them
and they are asked with the same providers and signals. What they share are the providers: a new
description shows in every registry that holds the provider, wherever it is read. -/
theorem registries_are_isolated (s : Session) :
    (∀ (h : Handle) (steps : List Step), (∀ step ∈ steps, step.builds ≠ some h) →
      (s.run steps).2.registries h = s.registries h) ∧
    (∀ (h source : Handle) (more more' : List Step),
      let copied := (s.step (.clone h source)).2
      let t := (copied.run more).2
      let u := (copied.run more').2
      copied.Spares h more → copied.Spares source more' →
      t.providers = u.providers → t.signals = u.signals → ∀ ask : Ask,
        (t.step (ask.on h)).1 = (u.step (ask.on source)).1 ∧
        (t.step (ask.on h)).2.signals = (u.step (ask.on source)).2.signals) ∧
    ∀ (p : Handle) (description : String) (more : List Step), (∀ d, .redescribe p d ∉ more) →
      let t := ((s.step (.redescribe p description)).2.run more).2
      ∀ h : Handle, let registry := t.registries h
        let listings := registry.listings t.providers
        (∀ name, registry.find? name = some p →
          (t.step (.query h (.find name))).1.answer =
              .listing (some ⟨(t.providers p).name, description⟩) ∧
            ∀ q, (t.providers q).name = name →
              (t.step (.register h q)).1.events = [.notice (.replaced name description)]) ∧
        (∀ i : Nat, registry.toList[i]? = some p →
          listings[i]? = some ⟨(t.providers p).name, description⟩) ∧
        ∃ lines : List String,
          registry.summary t.providers =
            "Refactor Registry: " ++ toString registry.size ++ " refactors\n" ++
              String.join lines ∧
          ∀ (i : Nat) (name : String), registry.entries[i]? = some (name, p) →
            lines[i]? = some ("  - " ++ name ++ " (" ++ description ++ ")\n") := by
  refine ⟨fun h steps hother => registries_run (spares_of_builds hother), ?_, ?_⟩
  · intro h source more more' copied t u hcopy hsource hproviders hsignals
    apply step_on_congr _ hproviders hsignals
    have ht : t.registries h = copied.registries h := registries_run hcopy
    have hu : u.registries source = copied.registries source := registries_run hsource
    have hcopied : copied.registries h = copied.registries source := by
      by_cases hsource : source = h
      · rw [hsource]
      · change (s.withRegistry h _).registries h = (s.withRegistry h _).registries source
        rw [withRegistry_same, withRegistry_of_ne _ _ hsource]
    rw [ht, hu, hcopied]
  · intro p description more hmore t h registry listings
    have hdescription : (t.providers p).description = description := by
      rw [description_run hmore, providers_step, Step.revise, Providers.update_same]
    have hlisting : (t.providers p).listing = ⟨(t.providers p).name, description⟩ :=
      congrArg (Listing.mk _) hdescription
    refine ⟨fun name hname => ⟨?_, ?_⟩, ?_, _, rfl, ?_⟩
    · simp only [Session.step, Registry.answer, registry, hname, Option.map_some, hlisting]
    · rintro q rfl
      have hnotice := Registry.notice_register_of_taken hname
      rw [hdescription] at hnotice
      change [Event.notice (registry.register t.providers q).2] = _
      rw [hnotice]
    · intro i hi
      simp only [listings, Registry.listings, List.getElem?_map, hi, Option.map_some, hlisting]
    · intro i name hi
      rw [List.getElem?_map, hi, Option.map_some]
      simp only [hdescription]

/-- A registry with `p` is copied, `p` is refused by the copy and described anew, and `q` is filed in
the copy only. -/
theorem registries_are_isolated_of_refused_copy :
    let s : Session := (Session.run
      ⟨fun h => ({ edit := some {} } : Script).provider h h, fun _ => .flag false, fun _ => {}⟩
      [.register "a" "p"]).2
    let copied := (s.step (.clone "b" "a")).2
    let refused := (copied.step (.tryRegister "b" "p")).2
    let described := (copied.step (.redescribe "p" "new")).2
    let r : Request := { file := ⟨"a.ts", ""⟩ }
    copied.Spares "b" [.tryRegister "b" "p"] ∧
    (copied.step (.tryRegister "b" "p")).1.answer =
      .registered ["p"] (some (.duplicateName "p")) ∧
    (refused.step (.resolve "b" r "p" "fix")).1 = (copied.step (.resolve "a" r "p" "fix")).1 ∧
    (refused.step (.resolve "b" r "p" "fix")).1.answer = .edit (some {}) ∧
    (refused.step (.query "b" .summary)).1 = (copied.step (.query "a" .summary)).1 ∧
    ((copied.run [.register "b" "q"]).2.registries "a").names = ["p"] ∧
    ∀ h ∈ ["a", "b"], (described.step (.query h (.find "p"))).1.answer =
      .listing (some ⟨"p", "new"⟩) := by
  intro s copied refused described r
  obtain ⟨-, hcopy, -⟩ := registries_are_isolated s
  obtain ⟨hframe, -, hshared⟩ := registries_are_isolated copied
  have hspares : copied.Spares "b" [.tryRegister "b" "p"] :=
    ⟨fun _ => ⟨["p"], .duplicateName "p", rfl⟩, trivial⟩
  have hsame (ask : Ask) : (refused.step (ask.on "b")).1 = (copied.step (ask.on "a")).1 :=
    (hcopy "b" "a" [.tryRegister "b" "p"] [] hspares trivial rfl rfl ask).1
  refine ⟨hspares, rfl, hsame (.resolve r "p" "fix"), rfl, hsame (.query .summary), ?_, ?_⟩
  · have hkept := hframe "a" [.register "b" "q"] (by decide)
    rw [hkept]
    rfl
  · intro h hh
    have hfind : (described.registries h).find? "p" = some "p" := by
      simp only [List.mem_cons, List.not_mem_nil, or_false] at hh
      rcases hh with rfl | rfl <;> rfl
    exact ((hshared "p" "new" [] (fun _ => List.not_mem_nil) h).1 "p" hfind).1

end Session
end CodeActions
