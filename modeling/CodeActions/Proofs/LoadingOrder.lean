import CodeActions.Proofs.Discovery.Insertion
import CodeActions.Proofs.Routing
import Mathlib.Data.List.Count
/-!
# Loading order

Providers may come to be registered in any order. As long as those that are registered under one
name come in the same order among themselves, the order of the rest shows in the order of the names
and in nothing else (`loading_order_shows_in_order_only`).
-/
namespace CodeActions

namespace Registration
variable {history other : List Registration}

/-- The histories are permutations of each other in which the registrations under every name have
kept their order. -/
def Reorders (history other : List Registration) : Prop :=
  ∀ name, history.filter (fun e => e.name = name) = other.filter (fun e => e.name = name)

private theorem Reorders.holder?_eq (hsame : Reorders history other) (name : String) :
    holder? history name = holder? other name := by
  unfold holder?
  rw [hsame name]

open Classical in
private theorem Reorders.perm (hsame : Reorders history other) : history.Perm other := by
  apply List.perm_iff_count.mpr
  intro e
  have hcount (l : List Registration) :
      (l.filter fun f => f.name = e.name).count e = l.count e :=
    List.count_filter (by simp)
  rw [← hcount history, hsame e.name, hcount other]

end Registration

namespace Registry.Follows
open Registration
variable {r r' : Registry Handle} {history other : List Registration}

private theorem find?_eq_of_reorders (hr : r.Follows history) (hr' : r'.Follows other)
    (hsame : Reorders history other) : r.find? = r'.find? := by
  funext name
  rw [hr.find?_eq, hr'.find?_eq, hsame.holder?_eq]

private theorem names_perm (hr : r.Follows history) (hr' : r'.Follows other)
    (hsame : Reorders history other) : r.names.Perm r'.names := by
  apply (List.perm_ext_iff_of_nodup hr.nodup hr'.nodup).mpr
  intro name
  rw [hr.names_eq, hr'.names_eq, List.mem_eraseDups, List.mem_eraseDups]
  exact (hsame.perm.map Registration.name).mem_iff

end Registry.Follows

namespace Dispatch
variable {registry registry' : Registry Handle} {name : String}

private theorem resolve_eq_of_find? (hfind : registry.find? name = registry'.find? name)
    (ps : Providers) (r : Request) (action : String) (s : Signals) :
    resolve ps r registry name action s = resolve ps r registry' name action s := by
  simp only [resolve, hfind]

end Dispatch

namespace Session
open Registration

/-- The order in which providers are registered matters for the order of names and contributions
only. Take two registries with the same registrations under every name, in the same order. They are
of one size, and the same provider is found under every name. A request for an edit reaches that
provider in both, or finds the name unknown in both. A pass without a signal comes in both to the
same contributions, those of the providers that are found under the names, in the order in which the
names first occur in each history. -/
theorem loading_order_shows_in_order_only (ps ps' : Providers) (signals signals' : Signals)
    (steps steps' : List Step) (h h' : Handle) :
    let history := (opening ps signals).record (fun _ => []) steps h
    let history' := (opening ps' signals').record (fun _ => []) steps' h'
    let registry := ((opening ps signals).run steps).2.registries h
    let registry' := ((opening ps' signals').run steps').2.registries h'
    Reorders history history' →
      registry.size = registry'.size ∧
      (∀ name, registry.find? name = registry'.find? name) ∧
      (∀ (now : Providers) (r : Request) (name action : String) (s : Signals),
        Dispatch.Reaches now r registry name action s (registry.find? name) ∧
        Dispatch.Reaches now r registry' name action s (registry.find? name) ∧
        Dispatch.resolve now r registry name action s =
          Dispatch.resolve now r registry' name action s ∧
        Dispatch.edits now r registry name action s =
          Dispatch.edits now r registry' name action s) ∧
      let names := (history.map Registration.name).eraseDups
      let names' := (history'.map Registration.name).eraseDups
      names.Perm names' ∧
      ∀ (now : Providers) (r : Request) (block : Handle → List Offer), r.signal = none →
        (∀ p ∈ registry.toList, (now p).Contributes r (block p)) →
        ∀ s s' : Signals,
          (Dispatch.discover now r registry s).outcome =
            .ok ((names.filterMap registry.find?).flatMap block) ∧
          (Dispatch.discover now r registry' s').outcome =
            .ok ((names'.filterMap registry.find?).flatMap block) := by
  intro history history' registry registry' hsame
  have hr : registry.Follows _ := follows_opening ps signals steps h
  have hr' : registry'.Follows _ := follows_opening ps' signals' steps' h'
  have hfind : registry.find? = registry'.find? := hr.find?_eq_of_reorders hr' hsame
  have hnames : registry.names.Perm registry'.names := hr.names_perm hr' hsame
  refine ⟨?_, congrFun hfind, ?_, ?_, ?_⟩
  · simpa [Registry.names, Registry.size] using hnames.length_eq
  · intro now r name action s
    have hresolve := Dispatch.resolve_eq_of_find? (congrFun hfind name) now r action s
    have hreaches' := Dispatch.reaches_find? now r registry' name action s
    rw [← hfind] at hreaches'
    refine ⟨Dispatch.reaches_find? now r registry name action s, hreaches', hresolve, ?_⟩
    rw [Dispatch.edits, Dispatch.edits, hresolve]
  · rwa [hr.names_eq, hr'.names_eq] at hnames
  · intro now r block hsignal hblock s s'
    let names := (history.map Registration.name).eraseDups
    let names' := (history'.map Registration.name).eraseDups
    have hlist : registry.toList = names.filterMap registry.find? := by
      rw [Registry.toList_eq_filterMap hr.nodup, hr.names_eq]
    have hlist' : registry'.toList = names'.filterMap registry.find? := by
      rw [Registry.toList_eq_filterMap hr'.nodup, hr'.names_eq, hfind]
    have hblock' : ∀ p ∈ registry'.toList, (now p).Contributes r (block p) := by
      intro p hp
      rw [Registry.toList_eq_filterMap hr'.nodup, ← hfind] at hp
      rw [Registry.toList_eq_filterMap hr.nodup] at hblock
      exact hblock p ((hnames.filterMap _).mem_iff.mpr hp)
    rw [← hlist, ← hlist']
    exact ⟨Dispatch.outcome_of_no_signal now r hblock hsignal s,
      Dispatch.outcome_of_no_signal now r hblock' hsignal s'⟩

theorem loading_order_shows_in_order_only_of_namesakes :
    let s := opening namesakes fun _ => .flag false
    let steps : List Step := [.extend "a" ["p", "q", "q2"]]
    let steps' : List Step := [.register "b" "t", .collect "b" ["q", "q2"], .register "b" "p"]
    let registry := (s.run steps).2.registries "a"
    let registry' := (s.run steps').2.registries "b"
    let r : Request := { file := ⟨"a.ts", ""⟩ }
    let block (h : Handle) : List Offer := [⟨h, h, none, []⟩]
    let now : Providers := fun h =>
      ({ edit := some { renameFilename := some h } } : Script).provider h h
    Reorders (s.record (fun _ => []) steps "a") (s.record (fun _ => []) steps' "b") ∧
    registry.size = registry'.size ∧
    registry.find? "q" = registry'.find? "q" ∧
    (∀ u ∈ [registry, registry'],
      let known := Dispatch.resolve now r u "q" "fix" s.signals
      let unknown := Dispatch.resolve now r u "q2" "fix" s.signals
      Event.calls known.events = [r.call "q2" (some "fix")] ∧
      known.outcome = .ok (.ok (some { renameFilename := some "q2" })) ∧
      Event.calls unknown.events = [] ∧ unknown.outcome = .ok (.error (.unknownName "q2"))) ∧
    (Dispatch.discover namesakes r registry s.signals).outcome = .ok (block "p" ++ block "q2") ∧
    (Dispatch.discover namesakes r registry' s.signals).outcome = .ok (block "q2" ++ block "p") := by
  intro s steps steps' registry registry' r block now
  have hsame : Reorders (s.record (fun _ => []) steps "a")
      (s.record (fun _ => []) steps' "b") := by
    intro name
    by_cases hp : "p" = name
    · subst hp
      rfl
    · by_cases hq : "q" = name
      · subst hq
        rfl
      · have hfirst : s.record (fun _ => []) steps "a" =
            [⟨"p", "p", false⟩, ⟨"q", "q", false⟩, ⟨"q", "q2", false⟩] := rfl
        have hsecond : s.record (fun _ => []) steps' "b" =
            [⟨"q", "q", false⟩, ⟨"q", "q2", false⟩, ⟨"p", "p", false⟩] := rfl
        simp [hfirst, hsecond, hp, hq]
  obtain ⟨hsize, hfind, hedit, -, hpass⟩ := loading_order_shows_in_order_only namesakes namesakes
    s.signals s.signals steps steps' "a" "b" hsame
  obtain ⟨hfirst, hsecond⟩ := hpass namesakes r block rfl (fun _ _ _ => rfl) s.signals s.signals
  have hreaches : ∀ u ∈ [registry, registry'],
      Dispatch.Reaches now r u "q" "fix" s.signals (some "q2") ∧
        Dispatch.Reaches now r u "q2" "fix" s.signals none := by
    obtain ⟨hknown, hknown', -⟩ := hedit now r "q" "fix" s.signals
    obtain ⟨hunknown, hunknown', -⟩ := hedit now r "q2" "fix" s.signals
    exact List.forall_mem_cons.mpr
      ⟨⟨hknown, hunknown⟩, List.forall_mem_singleton.mpr ⟨hknown', hunknown'⟩⟩
  refine ⟨hsame, hsize, hfind "q", fun u hu => ?_, hfirst, hsecond⟩
  obtain ⟨⟨⟨hanswer, -⟩, hcalls, -⟩, ⟨hfails, -⟩, hnobody, -⟩ := hreaches u hu
  exact ⟨hcalls, hanswer, hnobody, hfails⟩

end Session
end CodeActions
