import Abacus.Eval.Basic

/-!
# Evaluation in postorder

The nodes of an expression, each after those below it, are done one after the other on
a stack of values: a node takes the values of its operands and leaves its own.  An
expression is evaluated by doing its nodes in this order, up to the first that fails.
-/

namespace Abacus

/-! ## Binding names in order -/

namespace Scope

def insertAll (s : Scope) (bindings : List (String × Value)) : Scope :=
  bindings.foldl (fun s binding => s.insert binding.1 binding.2) s

variable {s : Scope} {bindings : List (String × Value)} {name : String}

theorem insertAll_append (s : Scope) (as bs : List (String × Value)) :
    s.insertAll (as ++ bs) = (s.insertAll as).insertAll bs :=
  List.foldl_append

@[simp] theorem outer_insertAll (s : Scope) (bindings : List (String × Value)) :
    (s.insertAll bindings).outer = s.outer := by
  induction bindings generalizing s with
  | nil => rfl
  | cons binding rest ih => exact ih (s.insert binding.1 binding.2)

theorem find?_insertAll_of_not_mem (h : name ∉ bindings.map Prod.fst) :
    (s.insertAll bindings).table.find? name = s.table.find? name := by
  induction bindings generalizing s with
  | nil => rfl
  | cons binding rest ih =>
      rw [List.map_cons, List.mem_cons, not_or] at h
      have hfirst : (s.insert binding.1 binding.2).table.find? name = s.table.find? name := by
        simp only [insert, Table.find?_insert, if_neg (Ne.symm h.1)]
      exact (ih h.2).trans hfirst

theorem contains_insertAll (h : s.table.contains name) :
    (s.insertAll bindings).table.contains name := by
  induction bindings generalizing s with
  | nil => exact h
  | cons binding rest ih =>
      apply ih
      rw [Table.contains] at h ⊢
      simp only [insert, Table.find?_insert]
      split
      · rfl
      · exact h

end Scope

/-! ## Nodes in postorder -/

namespace Expr

/-- The nodes of an expression, each after those below it and from left to right. -/
def postorder : Expr -> List Expr
  | literal value mark => [literal value mark]
  | access name mark => [access name mark]
  | assign name mark value => value.postorder ++ [assign name mark value]
  | unary sign mark operand => operand.postorder ++ [unary sign mark operand]
  | binary op mark left right =>
      left.postorder ++ (right.postorder ++ [binary op mark left right])

def target? : Expr -> Option String
  | assign name _ _ => some name
  | _ => none

def targets (nodes : List Expr) : List String :=
  nodes.filterMap target?

theorem targets_append (as bs : List Expr) : targets (as ++ bs) = targets as ++ targets bs :=
  List.filterMap_append

theorem mem_targets_iff {name : String} {nodes : List Expr} :
    name ∈ targets nodes ↔ ∃ mark body, assign name mark body ∈ nodes := by
  rw [targets, List.mem_filterMap]
  constructor
  · rintro ⟨node, hnode, htarget⟩
    cases node with
    | assign other mark body =>
        cases htarget
        exact ⟨mark, body, hnode⟩
    | _ => cases htarget
  · rintro ⟨mark, body, hnode⟩
    exact ⟨_, hnode, rfl⟩

theorem split_append {as bs before after : List Expr} {node : Expr}
    (h : as ++ bs = before ++ node :: after) :
    (∃ rest, as = before ++ node :: rest) ∨
      ∃ front, before = as ++ front ∧ bs = front ++ node :: after := by
  rcases List.append_eq_append_iff.mp h with ⟨front, hbefore, hbs⟩ | ⟨rest, has, hafter⟩
  · exact .inr ⟨front, hbefore, hbs⟩
  · cases rest with
    | nil => exact .inr ⟨[], by simp [has], hafter.symm⟩
    | cons other rest =>
        cases (List.cons.inj hafter).1
        exact .inl ⟨rest, has⟩

theorem split_singleton {before after : List Expr} {node last : Expr}
    (h : [last] = before ++ node :: after) : before = [] ∧ node = last := by
  cases before with
  | nil => exact ⟨rfl, (List.cons.inj h).1.symm⟩
  | cons other before => simp at h

/-- The nodes below a node stand right before it. -/
theorem postorder_split {tree node : Expr} {before after : List Expr}
    (h : tree.postorder = before ++ node :: after) :
    ∃ outside below, before = outside ++ below ∧ node.postorder = below ++ [node] := by
  induction tree generalizing before after with
  | literal value mark =>
      obtain ⟨rfl, rfl⟩ := split_singleton h
      exact ⟨[], [], rfl, rfl⟩
  | access name mark =>
      obtain ⟨rfl, rfl⟩ := split_singleton h
      exact ⟨[], [], rfl, rfl⟩
  | assign name mark body ih =>
      rcases split_append h with ⟨rest, hbody⟩ | ⟨front, rfl, hself⟩
      · exact ih hbody
      · obtain ⟨rfl, rfl⟩ := split_singleton hself
        exact ⟨[], body.postorder, by simp, rfl⟩
  | unary sign mark operand ih =>
      rcases split_append h with ⟨rest, hoperand⟩ | ⟨front, rfl, hself⟩
      · exact ih hoperand
      · obtain ⟨rfl, rfl⟩ := split_singleton hself
        exact ⟨[], operand.postorder, by simp, rfl⟩
  | binary op mark left right ihleft ihright =>
      rcases split_append h with ⟨rest, hleft⟩ | ⟨front, rfl, hrest⟩
      · exact ihleft hleft
      · rcases split_append hrest with ⟨rest, hright⟩ | ⟨front, rfl, hself⟩
        · obtain ⟨outside, below, rfl, hbelow⟩ := ihright hright
          exact ⟨left.postorder ++ outside, below, by simp, hbelow⟩
        · obtain ⟨rfl, rfl⟩ := split_singleton hself
          exact ⟨[], left.postorder ++ right.postorder, by simp, by simp [postorder]⟩

theorem mem_postorder_trans {tree node e : Expr} (hnode : node ∈ tree.postorder)
    (h : e ∈ node.postorder) : e ∈ tree.postorder := by
  obtain ⟨before, after, hsplit⟩ := List.append_of_mem hnode
  obtain ⟨outside, below, rfl, hbelow⟩ := postorder_split hsplit
  rw [hbelow, List.mem_append, List.mem_singleton] at h
  rcases h with h | rfl
  · simp [hsplit, h]
  · exact hnode

end Expr

/-! ## Doing one node -/

namespace Eval

/-- The values that are not yet used, the latest first; the scope; and the assignments so far. -/
structure State where
  values : List Value
  scope : Scope
  assigned : List (String × Value)

/-- Doing a node, whose operands have left their values. -/
inductive Step : State -> Expr -> State -> Prop where
  | literal {values : List Value} {scope : Scope} {log : List (String × Value)}
      (value : Number) (mark : Span) :
      Step ⟨values, scope, log⟩ (.literal value mark) ⟨⟨value, some mark⟩ :: values, scope, log⟩
  | access {values : List Value} {scope : Scope} {log : List (String × Value)}
      {name : String} {value : Value} (mark : Span) (h : scope.find? name = some value) :
      Step ⟨values, scope, log⟩ (.access name mark)
        ⟨⟨value.number, some mark⟩ :: values, scope, log⟩
  | assign {values : List Value} {scope : Scope} {log : List (String × Value)}
      {value : Value} (name : String) (mark : Span) (body : Expr) :
      Step ⟨value :: values, scope, log⟩ (.assign name mark body)
        ⟨value :: values, scope.insert name value, log ++ [(name, value)]⟩
  | unary {values : List Value} {scope : Scope} {log : List (String × Value)}
      {value : Value} (sign : Sign) (mark : Span) (operand : Expr) :
      Step ⟨value :: values, scope, log⟩ (.unary sign mark operand)
        ⟨⟨sign.apply value.number, some (mark.through operand.span)⟩ :: values, scope, log⟩
  | binary {values : List Value} {scope : Scope} {log : List (String × Value)}
      {a b : Value} {op : Operator} {n : Number} (mark : Span) (left right : Expr)
      (h : op.value? a.number b.number = some n) :
      Step ⟨b :: a :: values, scope, log⟩ (.binary op mark left right)
        ⟨⟨n, some (left.span.through right.span)⟩ :: values, scope, log⟩

/-- A node that fails: the access of a name that is not bound, or a division by zero. -/
inductive Halts : State -> Expr -> Fault -> Prop where
  | undefined {values : List Value} {scope : Scope} {log : List (String × Value)}
      {name : String} (mark : Span) (h : scope.find? name = none) :
      Halts ⟨values, scope, log⟩ (.access name mark) ⟨.undefined name, mark⟩
  | divisionByZero {values : List Value} {scope : Scope} {log : List (String × Value)}
      {a b : Value} (mark : Span) (left right : Expr) (h : b.number.isZero) :
      Halts ⟨b :: a :: values, scope, log⟩ (.binary .div mark left right)
        ⟨.divisionByZero, right.span⟩

variable {st mid next last : State} {node : Expr} {nodes as bs : List Expr} {fault : Fault}

theorem Step.unique (h : Step st node next) (h' : Step st node last) : next = last := by
  cases h with
  | literal => cases h'; rfl
  | access mark h =>
      cases h' with
      | access mark h' =>
          cases h.symm.trans h'
          rfl
  | assign => cases h'; rfl
  | unary => cases h'; rfl
  | binary mark left right h =>
      cases h' with
      | binary _ _ _ h' =>
          cases h.symm.trans h'
          rfl

theorem Step.not_halts (h : Step st node next) : ¬ Halts st node fault := by
  intro hhalts
  cases hhalts with
  | undefined mark hnone =>
      cases h with
      | access mark h => cases h.symm.trans hnone
  | divisionByZero mark left right hzero =>
      cases h with
      | binary _ _ _ h =>
          rw [Operator.value?, if_pos hzero] at h
          cases h

/-! ## Doing some nodes -/

inductive Steps : State -> List Expr -> State -> Prop where
  | nil (st : State) : Steps st [] st
  | cons {st next last : State} {node : Expr} {nodes : List Expr} (first : Step st node next)
      (rest : Steps next nodes last) : Steps st (node :: nodes) last

namespace Steps

theorem single (h : Step st node next) : Steps st [node] next :=
  .cons h (.nil next)

theorem append (h : Steps st as mid) (h' : Steps mid bs last) : Steps st (as ++ bs) last := by
  induction h with
  | nil => exact h'
  | cons first rest ih => exact .cons first (ih h')

theorem split (h : Steps st (as ++ bs) last) : ∃ mid, Steps st as mid ∧ Steps mid bs last := by
  induction as generalizing st with
  | nil => exact ⟨st, .nil st, h⟩
  | cons node as ih =>
      cases h with
      | cons first rest =>
          obtain ⟨mid, has, hbs⟩ := ih rest
          exact ⟨mid, .cons first has, hbs⟩

theorem unique (h : Steps st nodes next) (h' : Steps st nodes last) : next = last := by
  induction h with
  | nil => cases h'; rfl
  | cons first rest ih =>
      cases h' with
      | cons first' rest' =>
          cases first.unique first'
          exact ih rest'

end Steps

/-- A node binds its own name, if it has one to bind, and nothing else. -/
theorem Step.effect (h : Step st node next) :
    ∃ bindings, bindings.map Prod.fst = Expr.targets [node] ∧
      next.assigned = st.assigned ++ bindings ∧ next.scope = st.scope.insertAll bindings := by
  cases h with
  | literal => exact ⟨[], rfl, (List.append_nil _).symm, rfl⟩
  | access => exact ⟨[], rfl, (List.append_nil _).symm, rfl⟩
  | @assign values scope log value name mark body => exact ⟨[(name, value)], rfl, rfl, rfl⟩
  | unary => exact ⟨[], rfl, (List.append_nil _).symm, rfl⟩
  | binary => exact ⟨[], rfl, (List.append_nil _).symm, rfl⟩

theorem Steps.effect (h : Steps st nodes last) :
    ∃ bindings, bindings.map Prod.fst = Expr.targets nodes ∧
      last.assigned = st.assigned ++ bindings ∧ last.scope = st.scope.insertAll bindings := by
  induction h with
  | nil st => exact ⟨[], rfl, (List.append_nil _).symm, rfl⟩
  | @cons st next last node nodes first rest ih =>
      obtain ⟨as, hnames, hassigned, hscope⟩ := first.effect
      obtain ⟨bs, hnames', hassigned', hscope'⟩ := ih
      refine ⟨as ++ bs, ?_, ?_, ?_⟩
      · rw [List.map_append, hnames, hnames', ← Expr.targets_append, List.singleton_append]
      · rw [hassigned', hassigned, List.append_assoc]
      · rw [hscope', hscope, Scope.insertAll_append]

def State.start (scope : Scope) : State :=
  ⟨[], scope, []⟩

/-- Some nodes have been done from a scope: just their assignments took effect, in their order. -/
structure Performed (scope : Scope) (nodes : List Expr) (st : State) : Prop where
  steps : Steps (.start scope) nodes st
  names_eq : st.assigned.map Prod.fst = Expr.targets nodes
  scope_eq : st.scope = scope.insertAll st.assigned

theorem Steps.performed {scope : Scope} (h : Steps (.start scope) nodes st) :
    Performed scope nodes st := by
  obtain ⟨bindings, hnames, hassigned, hscope⟩ := h.effect
  have hlog : st.assigned = bindings := hassigned
  rw [← hlog] at hnames hscope
  exact ⟨h, hnames, hscope⟩

def Fails (st : State) (nodes : List Expr) (next : State) (fault : Fault) : Prop :=
  ∃ before node after, nodes = before ++ node :: after ∧ Steps st before next ∧
    Halts next node fault

namespace Fails

theorem before (h : Fails st as next fault) (bs : List Expr) : Fails st (as ++ bs) next fault := by
  obtain ⟨before, node, after, rfl, hsteps, hhalts⟩ := h
  refine ⟨before, node, after ++ bs, ?_, hsteps, hhalts⟩
  rw [List.append_assoc, List.cons_append]

theorem after (h : Steps st as mid) (h' : Fails mid bs next fault) :
    Fails st (as ++ bs) next fault := by
  obtain ⟨before, node, after, rfl, hsteps, hhalts⟩ := h'
  exact ⟨as ++ before, node, after, (List.append_assoc ..).symm, h.append hsteps, hhalts⟩

theorem not_steps (h : Fails st nodes next fault) : ¬ Steps st nodes last := by
  obtain ⟨before, node, after, rfl, hsteps, hhalts⟩ := h
  intro hall
  obtain ⟨mid, hbefore, hrest⟩ := hall.split
  cases hsteps.unique hbefore
  cases hrest with
  | cons first rest => exact first.not_halts hhalts

end Fails

/-! ## Evaluation does the nodes in postorder -/

def Outcome.after (o : Outcome) (st : State) (values : List Value) : State :=
  ⟨values, o.scope, st.assigned ++ o.assigned⟩

/-- An evaluation does some nodes: all of them if it has a value, else up to its fault. -/
def Outcome.Does (o : Outcome) (st : State) (nodes : List Expr) : Prop :=
  match o.result with
  | .ok value => Steps st nodes (o.after st (value :: st.values))
  | .error fault => ∃ values, Fails st nodes (o.after st values) fault

variable {o : Outcome}

theorem Outcome.Does.steps {value : Value} (h : o.Does st nodes) (hresult : o.result = .ok value) :
    Steps st nodes (o.after st (value :: st.values)) := by
  rwa [Outcome.Does, hresult] at h

theorem Outcome.Does.fails (h : o.Does st nodes) (hresult : o.result = .error fault) :
    ∃ values, Fails st nodes (o.after st values) fault := by
  rwa [Outcome.Does, hresult] at h

theorem does_access (name : String) (mark : Span) (st : State) :
    ((Expr.access name mark).eval st.scope).Does st [.access name mark] := by
  obtain ⟨values, scope, log⟩ := st
  cases hfind : scope.find? name with
  | some value =>
      simp only [Expr.eval, hfind, Outcome.Does, Outcome.after, List.append_nil]
      exact .single (.access mark hfind)
  | none =>
      simp only [Expr.eval, hfind, Outcome.Does, Outcome.after, List.append_nil]
      exact ⟨values, [], _, [], rfl, .nil _, .undefined mark hfind⟩

theorem eq_div_of_value?_eq_none {op : Operator} {a b : Number} (h : op.value? a b = none) :
    op = .div ∧ b.isZero := by
  cases op with
  | div =>
      refine ⟨rfl, ?_⟩
      rw [Operator.value?] at h
      by_cases hzero : b.isZero
      · exact hzero
      · rw [if_neg hzero] at h
        cases h
  | _ => cases h

/-- Evaluating an expression does its nodes in postorder. -/
theorem does_eval (e : Expr) (st : State) : (e.eval st.scope).Does st e.postorder := by
  induction e generalizing st with
  | literal value mark =>
      simp only [Expr.eval, Outcome.Does, Outcome.after, List.append_nil]
      exact .single (.literal value mark)
  | access name mark => exact does_access name mark st
  | assign name mark body ih =>
      cases hresult : (body.eval st.scope).result with
      | ok value =>
          simp only [Expr.eval, hresult, Outcome.Does, Outcome.after, ← List.append_assoc]
          exact ((ih st).steps hresult).append (.single (.assign name mark body))
      | error fault =>
          obtain ⟨values, hfails⟩ := (ih st).fails hresult
          simp only [Expr.eval, hresult, Outcome.Does]
          exact ⟨values, hfails.before _⟩
  | unary sign mark operand ih =>
      cases hresult : (operand.eval st.scope).result with
      | ok value =>
          simp only [Expr.eval, hresult, Outcome.Does]
          exact ((ih st).steps hresult).append (.single (.unary sign mark operand))
      | error fault =>
          obtain ⟨values, hfails⟩ := (ih st).fails hresult
          simp only [Expr.eval, hresult, Outcome.Does]
          exact ⟨values, hfails.before _⟩
  | binary op mark left right ihleft ihright =>
      cases hleft : (left.eval st.scope).result with
      | error fault =>
          obtain ⟨values, hfails⟩ := (ihleft st).fails hleft
          simp only [Expr.eval, hleft, Outcome.Does]
          exact ⟨values, hfails.before _⟩
      | ok a =>
          have hsteps := (ihleft st).steps hleft
          have ih := ihright ((left.eval st.scope).after st (a :: st.values))
          cases hright : (right.eval (left.eval st.scope).scope).result with
          | error fault =>
              obtain ⟨values, hfails⟩ := ih.fails hright
              simp only [Expr.eval, hleft, hright, Outcome.Does, Outcome.after,
                ← List.append_assoc]
              exact ⟨values, .after hsteps (hfails.before _)⟩
          | ok b =>
              have hboth := hsteps.append (ih.steps hright)
              cases hvalue : op.value? a.number b.number with
              | some n =>
                  simp only [Expr.eval, hleft, hright, hvalue, Outcome.Does, Outcome.after,
                    Expr.postorder, ← List.append_assoc]
                  exact hboth.append (.single (.binary mark left right hvalue))
              | none =>
                  obtain ⟨rfl, hzero⟩ := eq_div_of_value?_eq_none hvalue
                  simp only [Expr.eval, hleft, hright, hvalue, Outcome.Does, Outcome.after,
                    Expr.postorder, ← List.append_assoc]
                  exact ⟨_, _, _, [], rfl, hboth, .divisionByZero mark left right hzero⟩

/-! ## What an evaluation leaves -/

/-- An evaluation ends after the first nodes in postorder, which may be all of them. -/
theorem exists_performed (tree : Expr) (scope : Scope) :
    ∃ done rest values, tree.postorder = done ++ rest ∧
      Performed scope done ((tree.eval scope).after (.start scope) values) := by
  have hdoes := does_eval tree (.start scope)
  cases hresult : (tree.eval scope).result with
  | ok value =>
      exact ⟨tree.postorder, [], _, by simp, (hdoes.steps hresult).performed⟩
  | error fault =>
      obtain ⟨values, before, node, after, hnodes, hsteps, -⟩ := hdoes.fails hresult
      exact ⟨before, node :: after, values, hnodes, hsteps.performed⟩

end Eval

namespace Expr

open Eval

/-- An evaluation leaves the scope that its assignments make, in their order. -/
theorem scope_eval (tree : Expr) (scope : Scope) :
    (tree.eval scope).scope = scope.insertAll (tree.eval scope).assigned := by
  obtain ⟨done, rest, values, -, hdone⟩ := exists_performed tree scope
  exact hdone.scope_eq

theorem mem_targets_of_assigned {tree : Expr} {scope : Scope} {name : String}
    (h : name ∈ (tree.eval scope).assigned.map Prod.fst) : name ∈ targets tree.postorder := by
  obtain ⟨done, rest, values, hnodes, hdone⟩ := exists_performed tree scope
  have hname : name ∈ targets done := by
    rw [← hdone.names_eq]
    exact h
  rw [hnodes, targets_append]
  exact List.mem_append_left _ hname

end Expr

end Abacus
