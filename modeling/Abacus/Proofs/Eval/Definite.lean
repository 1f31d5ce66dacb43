import Mathlib
import Abacus.Eval.Context
import Abacus.Proofs.Eval.Postorder
import Abacus.Proofs.Scope.Stack

/-!
# Definite assignment

Along the nodes of an expression in postorder it is known, without any value, which
accesses are undefined: those of names that are neither bound at the start nor assigned
earlier.  Evaluation fails at the first of them unless a division by zero comes before it.
-/

namespace Abacus

theorem Scope.contains_insert (s : Scope) (name other : String) (value : Value) :
    (s.insert name value).contains other = (decide (name = other) || s.contains other) := by
  rw [contains_eq_isSome, contains_eq_isSome, find?_insert]
  by_cases h : name = other <;> simp [h]

namespace Expr

/-- The accesses of names that are neither known at the start nor assigned earlier, in order. -/
def undefinedAccesses (known : String -> Bool) : List Expr -> List (String × Span)
  | [] => []
  | access name mark :: nodes =>
      if known name then undefinedAccesses known nodes
      else (name, mark) :: undefinedAccesses known nodes
  | assign name _ _ :: nodes =>
      undefinedAccesses (fun other => decide (name = other) || known other) nodes
  | _ :: nodes => undefinedAccesses known nodes

end Expr

/-! ## What the walk knows is what evaluation has bound -/

namespace Eval

variable {st next last : State} {node : Expr} {nodes : List Expr} {fault : Fault}

/-- Behind a node that is done, the walk knows just the names that are bound by then. -/
theorem Step.undefinedAccesses_eq (h : Step st node next) (nodes : List Expr) :
    Expr.undefinedAccesses st.scope.contains (node :: nodes) =
      Expr.undefinedAccesses next.scope.contains nodes := by
  cases h with
  | literal value mark => rfl
  | @access values scope log name value mark hfind =>
      have hknown : scope.contains name := by rw [Scope.contains_eq_isSome, hfind]; rfl
      exact if_pos hknown
  | @assign values scope log value name mark body =>
      have hknown : (scope.insert name value).contains =
          fun other => decide (name = other) || scope.contains other :=
        funext fun other => scope.contains_insert name other value
      rw [hknown, Expr.undefinedAccesses]
  | unary sign mark operand => rfl
  | binary mark left right happly => rfl

theorem Steps.undefinedAccesses_eq (h : Steps st nodes last) (rest : List Expr) :
    Expr.undefinedAccesses st.scope.contains (nodes ++ rest) =
      Expr.undefinedAccesses last.scope.contains rest := by
  induction h with
  | nil st => rfl
  | @cons st next last node nodes first more ih =>
      exact (first.undefinedAccesses_eq (nodes ++ rest)).trans ih

theorem Steps.undefinedAccesses_eq_nil (h : Steps st nodes last) :
    Expr.undefinedAccesses st.scope.contains nodes = [] := by
  have hall := h.undefinedAccesses_eq []
  rwa [List.append_nil] at hall

end Eval

/-! ## Where an evaluation fails -/

namespace Expr

open Eval

/-- A division is reached without an undefined access, and the value of its right operand,
which stands at the given place, is zero. -/
def DividesByZero (tree : Expr) (scope : Scope) (place : Span) : Prop :=
  ∃ outside mark left right after st value,
    tree.postorder =
      outside ++ left.postorder ++ right.postorder ++ binary .div mark left right :: after ∧
    place = right.span ∧
    undefinedAccesses scope.contains (outside ++ left.postorder ++ right.postorder) = [] ∧
    Performed scope (outside ++ left.postorder) st ∧
    (right.eval st.scope).result = .ok value ∧ value.number.isZero

theorem result_of_steps {e : Expr} {st : State} {value : Value} {values : List Value}
    {scope : Scope} {log : List (String × Value)}
    (h : Steps st e.postorder ⟨value :: values, scope, log⟩) :
    (e.eval st.scope).result = .ok value := by
  have hdoes := does_eval e st
  cases hresult : (e.eval st.scope).result with
  | ok found =>
      have hsame := (hdoes.steps hresult).unique h
      simp only [Outcome.after, State.mk.injEq, List.cons.injEq] at hsame
      rw [hsame.1.1]
  | error fault =>
      obtain ⟨rest, hfails⟩ := hdoes.fails hresult
      exact absurd h hfails.not_steps

variable {tree : Expr} {scope : Scope} {fault : Fault} {value : Value}

theorem undefinedAccesses_of_ok (h : (tree.eval scope).result = .ok value) :
    undefinedAccesses scope.contains tree.postorder = [] :=
  ((does_eval tree (.start scope)).steps h).undefinedAccesses_eq_nil

theorem exists_fails (h : (tree.eval scope).result = .error fault) :
    ∃ stopped, Fails (.start scope) tree.postorder stopped fault := by
  obtain ⟨values, hfails⟩ := (does_eval tree (.start scope)).fails h
  exact ⟨_, hfails⟩

/-- An evaluation fails at the first undefined access or at a division by zero before it. -/
theorem fault_of_error (h : (tree.eval scope).result = .error fault) :
    (∃ name, fault.cause = .undefined name ∧
      (undefinedAccesses scope.contains tree.postorder).head? = some (name, fault.span)) ∨
    (fault.cause = .divisionByZero ∧ tree.DividesByZero scope fault.span) := by
  obtain ⟨stopped, before, node, after, hnodes, hsteps, hhalts⟩ := exists_fails h
  cases hhalts with
  | @undefined values reached log name mark hfind =>
      have hunknown : ¬ reached.contains name := by simp [Scope.contains_eq_isSome, hfind]
      have hwalk : undefinedAccesses scope.contains tree.postorder =
          (name, mark) :: undefinedAccesses reached.contains after := by
        rw [hnodes]
        exact (hsteps.undefinedAccesses_eq _).trans (if_neg hunknown)
      exact .inl ⟨name, rfl, by rw [hwalk, List.head?_cons]⟩
  | @divisionByZero values reached log a b mark left right hzero =>
      obtain ⟨outside, below, rfl, hbelow⟩ := postorder_split hnodes
      have hoperands : below = left.postorder ++ right.postorder := by
        rw [postorder, ← List.append_assoc] at hbelow
        exact (List.append_cancel_right hbelow).symm
      subst hoperands
      rw [← List.append_assoc] at hnodes hsteps
      obtain ⟨st, hleft, hright⟩ := hsteps.split
      exact .inr ⟨rfl, outside, mark, left, right, after, st, b, hnodes, rfl,
        hsteps.undefinedAccesses_eq_nil, hleft.performed, result_of_steps hright, hzero⟩

theorem exists_ok_iff (hdiv : ∀ mark left right, binary .div mark left right ∉ tree.postorder) :
    (∃ value, (tree.eval scope).result = .ok value) ↔
      undefinedAccesses scope.contains tree.postorder = [] := by
  constructor
  · intro hvalue
    obtain ⟨value, hok⟩ := hvalue
    exact undefinedAccesses_of_ok hok
  · intro hnone
    cases hresult : (tree.eval scope).result with
    | ok value => exact ⟨value, rfl⟩
    | error fault =>
        rcases fault_of_error hresult with ⟨name, -, hhead⟩ | ⟨-, hzero⟩
        · rw [hnone] at hhead
          cases hhead
        · obtain ⟨outside, mark, left, right, after, st, value, hnodes, -⟩ := hzero
          have hmem : binary .div mark left right ∈ tree.postorder := by simp [hnodes]
          exact absurd hmem (hdiv mark left right)

end Expr

namespace Eval.Cause

theorem name_of_message {name other : String}
    (h : (undefined name).message = "'" ++ other ++ "' is not defined") : name = other := by
  have hlist := congrArg String.toList h
  simp only [message, String.toList_append, List.append_cancel_left_eq,
    List.append_cancel_right_eq] at hlist
  exact String.toList_inj.mp hlist

theorem message_divisionByZero_ne (name : String) :
    divisionByZero.message ≠ "'" ++ name ++ "' is not defined" := by
  intro h
  have hhead := congrArg (fun text : String => text.toList.head?) h
  simp [message] at hhead

end Eval.Cause

namespace Expr

open Eval

/-- Evaluation is predicted by the walk.  Without divisions it fails just if the walk meets an
undefined access.  It names and marks the first one, or else the right operand of a division
that has no undefined access before it and whose right operand was zero. -/
theorem eval_definite (tree : Expr) (scope : Scope) (context : Context) :
    ((∀ mark left right, binary .div mark left right ∉ tree.postorder) ->
      ((∃ value, (tree.eval scope).result = .ok value) ↔
        undefinedAccesses scope.contains tree.postorder = [])) ∧
    ∀ fault, (tree.eval scope).result = .error fault ->
      (fault.diagnostic context).kind = .runtime ∧
      (∀ name, (fault.diagnostic context).message = "'" ++ name ++ "' is not defined" ->
        (undefinedAccesses scope.contains tree.postorder).head? =
          some (name, (fault.diagnostic context).span)) ∧
      ((∀ name, (fault.diagnostic context).message ≠ "'" ++ name ++ "' is not defined") ->
        (fault.diagnostic context).message = "Division by Zero" ∧
          tree.DividesByZero scope (fault.diagnostic context).span) := by
  refine ⟨exists_ok_iff, ?_⟩
  intro fault herror
  refine ⟨rfl, ?_, ?_⟩
  · intro name hmessage
    rcases fault_of_error herror with ⟨first, hcause, hhead⟩ | ⟨hcause, -⟩
    · rw [Fault.diagnostic, hcause] at hmessage
      rw [← Cause.name_of_message hmessage]
      exact hhead
    · rw [Fault.diagnostic, hcause] at hmessage
      exact absurd hmessage (Cause.message_divisionByZero_ne name)
  · intro hother
    rcases fault_of_error herror with ⟨name, hcause, -⟩ | ⟨hcause, hzero⟩
    · exact absurd (congrArg Cause.message hcause) (hother name)
    · exact ⟨congrArg Cause.message hcause, hzero⟩

def place (column : Nat) : Span :=
  .point ⟨"text", "(var x = x) / x"⟩ ⟨column, 0, column⟩

/-- `(var x = body) op x` -/
def assignThenUse (op : Operator) (body : Expr) : Expr :=
  binary op (place 12) (assign "x" (place 5) body) (access "x" (place 14))

/-- An assignment does not define the name in its own value, but it does to the right of it. -/
theorem eval_definite_own_name :
    (¬ ∃ value, ((assignThenUse .sub (access "x" (place 9))).eval (.ofTable .empty)).result =
        .ok value) ∧
      (assignThenUse .div (literal (.int 0) (place 9))).DividesByZero (.ofTable .empty)
        (place 14) := by
  have hsub := (eval_definite (assignThenUse .sub (access "x" (place 9))) (.ofTable .empty)
    (.root "main")).1 (by simp [assignThenUse, postorder])
  have hdiv := (eval_definite (assignThenUse .div (literal (.int 0) (place 9)))
    (.ofTable .empty) (.root "main")).2 ⟨.divisionByZero, place 14⟩ rfl
  refine ⟨fun hvalue => ?_, ?_⟩
  · exact absurd (hsub.mp hvalue) (List.cons_ne_nil ("x", place 9) [])
  · exact (hdiv.2.2 Cause.message_divisionByZero_ne).2

end Expr

end Abacus
