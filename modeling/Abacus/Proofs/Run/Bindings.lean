import Mathlib
import Abacus.Proofs.Eval.Postorder
import Abacus.Proofs.Run.Basic
import Abacus.Run.Program

/-!
# What a run binds

The events of a run tell every assignment that it completes.  The scope that it leaves is
the one that it found with these assignments made in their order.
-/

namespace Abacus

namespace Event

def binding? : Event -> Option (String × Value)
  | assigned name value => some (name, value)
  | _ => none

/-- The assignments that some events tell of, in order. -/
def bindings (events : List Event) : List (String × Value) :=
  events.filterMap binding?

theorem bindings_append (as bs : List Event) : bindings (as ++ bs) = bindings as ++ bindings bs :=
  List.filterMap_append

theorem bindings_assigned (assignments : List (String × Value)) :
    bindings (assignments.map fun (name, value) => .assigned name value) = assignments := by
  rw [bindings, List.filterMap_map]
  exact List.filterMap_some

end Event

namespace Source

variable {s : Source} {tree : Expr}

theorem bindings_run_of_error {d : Diagnostic} (h : s.read = .error d) (scope : Scope) :
    Event.bindings (s.run scope).events = [] := by
  rcases read_eq_error_iff.mp h with hscan | ⟨tokens, hscan, hparse⟩
  · simp only [run, runIn, hscan]
    rfl
  · simp only [run, runIn, hscan, hparse]
    rfl

theorem bindings_run_of_ok (h : s.read = .ok tree) (scope : Scope) :
    Event.bindings (s.run scope).events = (tree.eval scope).assigned := by
  obtain ⟨tokens, hscan, hparse⟩ := read_eq_ok_iff.mp h
  simp only [run, runIn, hscan, hparse]
  cases (tree.eval scope).result with
  | error fault => exact Event.bindings_assigned _
  | ok value =>
      rw [Event.bindings_append]
      exact (List.append_nil _).trans (Event.bindings_assigned _)

theorem exists_read_of_bindings {scope : Scope} {binding : String × Value}
    (h : binding ∈ Event.bindings (s.run scope).events) :
    ∃ tree, s.read = .ok tree ∧ binding ∈ (tree.eval scope).assigned := by
  cases hread : s.read with
  | error d =>
      rw [bindings_run_of_error hread] at h
      cases h
  | ok tree =>
      rw [bindings_run_of_ok hread] at h
      exact ⟨tree, rfl, h⟩

/-- A run leaves the scope that its assignments make. -/
theorem scope_run (s : Source) (scope : Scope) :
    (s.run scope).scope = scope.insertAll (Event.bindings (s.run scope).events) := by
  cases hread : s.read with
  | error d =>
      rw [bindings_run_of_error hread]
      exact (runIn_of_read_error hread program scope).2
  | ok tree =>
      obtain ⟨tokens, hscan, hparse⟩ := read_eq_ok_iff.mp hread
      rw [bindings_run_of_ok hread, run, scope_runIn hscan hparse]
      exact tree.scope_eval scope

end Source

/-- A program leaves the scope that the assignments of its lines make. -/
theorem Program.scope_runLines (file : String) (lines : List String) (scope : Scope) :
    (runLines file lines scope).scope =
      scope.insertAll (Event.bindings (runLines file lines scope).events) := by
  induction lines generalizing scope with
  | nil => rfl
  | cons line rest ih =>
      have hfirst := Source.scope_run ⟨file, line⟩ scope
      cases hresult : (Source.run ⟨file, line⟩ scope).result with
      | error d =>
          simp only [runLines, hresult]
          exact hfirst
      | ok value =>
          simp only [runLines, hresult, Event.bindings_append, Scope.insertAll_append, ← hfirst]
          exact ih _

end Abacus
