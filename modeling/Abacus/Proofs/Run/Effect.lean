import Mathlib
import Abacus.Proofs.Eval.Postorder
import Abacus.Proofs.Run.Basic

/-!
# What a run leaves behind

A run binds the names of the assignments that it completed, in the order in which it
completed them, and leaves everything else as it was.  Nothing is taken back when a run
fails: the assignments before the node at fault stay.
-/

namespace Abacus

open Eval

/-! ## The frame of an evaluation -/

namespace Scope

/-- One scope comes from another by binding some of the given names in the innermost table. -/
structure BindsOnly (names : List String) (scope final : Scope) : Prop where
  outer_eq : final.outer = scope.outer
  find?_eq : ∀ name, name ∉ names -> final.table.find? name = scope.table.find? name
  contains : ∀ name, scope.table.contains name -> final.table.contains name

theorem bindsOnly_insertAll {names : List String} {bindings : List (String × Value)}
    (h : ∀ name ∈ bindings.map Prod.fst, name ∈ names) (scope : Scope) :
    BindsOnly names scope (scope.insertAll bindings) where
  outer_eq := outer_insertAll scope bindings
  find?_eq _ hname := find?_insertAll_of_not_mem fun hmem => hname (h _ hmem)
  contains _ := contains_insertAll

end Scope

namespace Expr

variable {scope : Scope} {st : State} {name : String} {nodes : List Expr}

theorem exists_last_assign (h : name ∈ targets nodes) :
    ∃ before mark body after, nodes = before ++ assign name mark body :: after ∧
      name ∉ targets after := by
  induction nodes with
  | nil => cases h
  | cons node nodes ih =>
      by_cases hlater : name ∈ targets nodes
      · obtain ⟨before, mark, body, after, rfl, hafter⟩ := ih hlater
        exact ⟨node :: before, mark, body, after, rfl, hafter⟩
      · obtain ⟨mark, body, hmem⟩ := mem_targets_iff.mp h
        rcases List.mem_cons.mp hmem with rfl | hmem
        · exact ⟨[], mark, body, nodes, rfl, hlater⟩
        · exact absurd (mem_targets_iff.mpr ⟨mark, body, hmem⟩) hlater

theorem find?_eval_assign {mark : Span} {body : Expr} {value : Value}
    (h : ((assign name mark body).eval scope).result = .ok value) :
    ((assign name mark body).eval scope).scope.table.find? name = some value := by
  cases hbody : (body.eval scope).result with
  | error fault => simp [eval, hbody] at h
  | ok v =>
      simp only [eval, hbody, Except.ok.injEq] at h
      simp [eval, hbody, Scope.insert, h]

/-- When all nodes are done, every name has the value of its last assignment. -/
theorem find?_of_performed {tree : Expr} (h : Performed scope tree.postorder st)
    (hname : name ∈ targets tree.postorder) :
    ∃ before mark body after mid value,
      tree.postorder = before ++ ((assign name mark body).postorder ++ after) ∧
      name ∉ targets after ∧ Performed scope before mid ∧
      ((assign name mark body).eval mid.scope).result = .ok value ∧
      st.scope.table.find? name = some value := by
  obtain ⟨_, mark, body, after, hsplit, hafter⟩ := exists_last_assign hname
  obtain ⟨before, below, rfl, hbelow⟩ := postorder_split hsplit
  have hnodes : tree.postorder = before ++ ((assign name mark body).postorder ++ after) := by
    rw [hsplit, hbelow, List.append_assoc, List.append_assoc, List.singleton_append]
  have hsteps := h.steps
  rw [hnodes] at hsteps
  obtain ⟨mid, hbefore, hrest⟩ := hsteps.split
  obtain ⟨next, hassign, hlater⟩ := hrest.split
  have hdoes := does_eval (assign name mark body) mid
  cases hresult : ((assign name mark body).eval mid.scope).result with
  | error fault =>
      obtain ⟨values, hfails⟩ := hdoes.fails hresult
      exact absurd hassign hfails.not_steps
  | ok value =>
      cases hassign.unique (hdoes.steps hresult)
      refine ⟨before, mark, body, after, mid, value, hnodes, hafter, hbefore.performed,
        hresult, ?_⟩
      obtain ⟨bindings, hnames, -, hscope⟩ := hlater.effect
      rw [hscope, Scope.find?_insertAll_of_not_mem (hnames ▸ hafter)]
      exact find?_eval_assign hresult

/-- Evaluation binds only what its assignments bind. -/
theorem bindsOnly_eval (tree : Expr) (scope : Scope) :
    Scope.BindsOnly (targets tree.postorder) scope (tree.eval scope).scope := by
  rw [scope_eval]
  exact Scope.bindsOnly_insertAll (fun _ => mem_targets_of_assigned) scope

end Expr

/-! ## The effect of a run -/

namespace Source

/--
The effect of a run is exactly that of the assignments it completed.

If the source cannot be read, nothing changes.  Otherwise only names that the expression
assigns can change, no name loses its value, and the outer tables stay.  After success
every assigned name has the value of its last assignment in postorder; after a failure
exactly the assignments before the node at fault took effect.
-/
theorem run_effect (s : Source) (scope : Scope) :
    (∀ d, s.read = .error d -> (s.run scope).scope = scope) ∧
      ∀ tree, s.read = .ok tree ->
        Scope.BindsOnly (Expr.targets tree.postorder) scope (s.run scope).scope ∧
        (∀ value, (s.run scope).result = .ok value ->
          ∃ st, Performed scope tree.postorder st ∧ st.values = [value] ∧
            st.scope = (s.run scope).scope ∧
            ∀ name ∈ Expr.targets tree.postorder, ∃ before mark body after mid v,
              tree.postorder = before ++ ((Expr.assign name mark body).postorder ++ after) ∧
              name ∉ Expr.targets after ∧ Performed scope before mid ∧
              ((Expr.assign name mark body).eval mid.scope).result = .ok v ∧
              (s.run scope).scope.table.find? name = some v) ∧
        ∀ d, (s.run scope).result = .error d ->
          ∃ before node after st fault, tree.postorder = before ++ node :: after ∧
            Performed scope before st ∧ Halts st node fault ∧
            st.scope = (s.run scope).scope ∧ d = fault.diagnostic program := by
  refine ⟨fun d hread => (runIn_of_read_error hread program scope).2, ?_⟩
  intro tree hread
  obtain ⟨tokens, hscan, hparse⟩ := read_eq_ok_iff.mp hread
  have hdoes := does_eval tree (.start scope)
  simp only [run]
  rw [scope_runIn hscan hparse, result_runIn hscan hparse]
  refine ⟨Expr.bindsOnly_eval tree scope, ?_, ?_⟩
  · intro value hvalue
    have hdone := (hdoes.steps (mapError_eq_ok_iff.mp hvalue)).performed
    exact ⟨_, hdone, rfl, rfl, fun name hname => Expr.find?_of_performed hdone hname⟩
  · intro d hd
    obtain ⟨fault, hfault, rfl⟩ := mapError_eq_error_iff.mp hd
    obtain ⟨values, before, node, after, hnodes, hsteps, hhalts⟩ := hdoes.fails hfault
    exact ⟨before, node, after, _, fault, hnodes, hsteps.performed, hhalts, rfl, rfl⟩

/-- A stretch of the text `var x=(var x=null)/x`. -/
def reassignment (start stop : Nat) : Span :=
  .within ⟨"text", "var x=(var x=null)/x"⟩ ⟨start, 0, start⟩ ⟨stop, 0, stop⟩

/-- The inner assignment of a name stays when the outer one fails. -/
theorem run_effect_reassignment :
    (Source.run ⟨"text", "var x=(var x=null)/x"⟩ (.ofTable .globals)).scope.table.find? "x" =
        some ⟨.int 0, some (reassignment 13 17)⟩ ∧
      ∃ before node after st fault,
        Expr.postorder (.assign "x" (reassignment 4 5)
          (.binary .div (reassignment 18 19)
            (.assign "x" (reassignment 11 12) (.access "null" (reassignment 13 17)))
            (.access "x" (reassignment 19 20)))) = before ++ node :: after ∧
        Performed (.ofTable .globals) before st ∧ Halts st node fault ∧
        st.scope = (Source.run ⟨"text", "var x=(var x=null)/x"⟩ (.ofTable .globals)).scope ∧
        ⟨.runtime, "Division by Zero", reassignment 19 20,
          program.traceback (reassignment 19 20).location⟩ = fault.diagnostic program := by
  have hread : Source.read ⟨"text", "var x=(var x=null)/x"⟩ =
      .ok (.assign "x" (reassignment 4 5)
        (.binary .div (reassignment 18 19)
          (.assign "x" (reassignment 11 12) (.access "null" (reassignment 13 17)))
          (.access "x" (reassignment 19 20)))) := by
    cbv
  have hresult : (Source.run ⟨"text", "var x=(var x=null)/x"⟩ (.ofTable .globals)).result =
      .error ⟨.runtime, "Division by Zero", reassignment 19 20,
        program.traceback (reassignment 19 20).location⟩ := by
    cbv
  refine ⟨by cbv, ?_⟩
  exact ((run_effect _ _).2 _ hread).2.2 _ hresult

end Source

end Abacus
