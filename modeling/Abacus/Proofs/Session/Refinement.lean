import Mathlib
import Abacus.Proofs.Run.Bindings
import Abacus.Proofs.Scope.Stack
import Abacus.Session.Basic

/-!
# Sessions as stacks of finite maps

A session does to its tables what is done to a stack of finite maps: names are looked up
from the top down, and everything else happens to the map on top.  What is done inside of
a context stays inside, so leaving it gives back the session from which it was entered.
-/

namespace Abacus

open Eval

/-! ## Evaluation on a stack -/

/-- Computations on a stack.  What they bind before a fault stays bound. -/
abbrev StackM := ExceptT Fault (StateM Stack)

namespace StackM

variable {α β : Type} {x : StackM α} {f : α -> StackM β} {k next : Stack}

theorem run_bind_ok {a : α} (h : x.run.run k = (.ok a, next)) :
    (x >>= f).run.run k = (f a).run.run next := by
  simp only [ExceptT.run_bind, StateT.run_bind, h]
  rfl

theorem run_bind_error {fault : Fault} (h : x.run.run k = (.error fault, next)) :
    (x >>= f).run.run k = (.error fault, next) := by
  simp only [ExceptT.run_bind, StateT.run_bind, h]
  rfl

end StackM

namespace Expr

def evalOn : Expr -> StackM Value
  | literal value mark => pure ⟨value, some mark⟩
  | access name mark => do
      match (← get).lookup name with
      | some value => pure ⟨value.number, some mark⟩
      | none => throw ⟨.undefined name, mark⟩
  | assign name _ body => do
      let value ← body.evalOn
      modify (·.insert name value)
      return value
  | unary sign mark operand => do
      let value ← operand.evalOn
      return ⟨sign.apply value.number, some (mark.through operand.span)⟩
  | binary op _ left right => do
      let a ← left.evalOn
      let b ← right.evalOn
      match op.value? a.number b.number with
      | some n => pure ⟨n, some (left.span.through right.span)⟩
      | none => throw ⟨.divisionByZero, right.span⟩

theorem run_evalOn_access (name : String) (mark : Span) (scope : Scope) :
    (access name mark).evalOn.run.run scope.stack =
      (((access name mark).eval scope).result, ((access name mark).eval scope).scope.stack) := by
  change (match scope.stack.lookup name with
    | some value => pure ⟨value.number, some mark⟩
    | none => throw ⟨.undefined name, mark⟩ : StackM Value).run.run scope.stack = _
  rw [Scope.lookup_stack]
  cases h : scope.find? name with
  | some value =>
      simp only [eval, h]
      rfl
  | none =>
      simp only [eval, h]
      rfl

/-- Evaluation in a scope is evaluation on its stack. -/
theorem run_evalOn (tree : Expr) (scope : Scope) :
    tree.evalOn.run.run scope.stack =
      ((tree.eval scope).result, (tree.eval scope).scope.stack) := by
  induction tree generalizing scope with
  | literal value mark => rfl
  | access name mark => exact run_evalOn_access name mark scope
  | assign name mark body ih =>
      specialize ih scope
      cases h : (body.eval scope).result with
      | error fault =>
          rw [h] at ih
          simp only [eval, h]
          exact StackM.run_bind_error ih
      | ok value =>
          rw [h] at ih
          simp only [eval, h, Scope.stack_insert]
          exact StackM.run_bind_ok ih
  | unary sign mark operand ih =>
      specialize ih scope
      cases h : (operand.eval scope).result with
      | error fault =>
          rw [h] at ih
          simp only [eval, h]
          exact StackM.run_bind_error ih
      | ok value =>
          rw [h] at ih
          simp only [eval, h]
          exact StackM.run_bind_ok ih
  | binary op mark left right ihleft ihright =>
      specialize ihleft scope
      cases hleft : (left.eval scope).result with
      | error fault =>
          rw [hleft] at ihleft
          simp only [eval, hleft]
          exact StackM.run_bind_error ihleft
      | ok a =>
          rw [hleft] at ihleft
          refine (StackM.run_bind_ok ihleft).trans ?_
          specialize ihright (left.eval scope).scope
          cases hright : (right.eval (left.eval scope).scope).result with
          | error fault =>
              rw [hright] at ihright
              simp only [eval, hleft, hright]
              exact StackM.run_bind_error ihright
          | ok b =>
              rw [hright] at ihright
              refine (StackM.run_bind_ok ihright).trans ?_
              cases happly : op.value? a.number b.number with
              | some n =>
                  simp only [eval, hleft, hright, happly]
                  rfl
              | none =>
                  simp only [eval, hleft, hright, happly]
                  rfl

end Expr

def Source.runOn (s : Source) : StateM Stack (Except Diagnostic Value) :=
  match s.read with
  | .error d => pure (.error d)
  | .ok tree => do
      let result ← tree.evalOn.run
      return result.mapError fun f => f.diagnostic program

theorem Source.run_runOn (s : Source) (scope : Scope) :
    s.runOn.run scope.stack = ((s.run scope).result, (s.run scope).scope.stack) := by
  cases hread : s.read with
  | error d =>
      obtain ⟨hresult, hscope⟩ := runIn_of_read_error hread program scope
      simp only [runOn, hread, run, hresult, hscope]
      rfl
  | ok tree =>
      obtain ⟨tokens, hscan, hparse⟩ := read_eq_ok_iff.mp hread
      simp only [runOn, hread, run, result_runIn hscan hparse, scope_runIn hscan hparse,
        StateT.run_bind, tree.run_evalOn]
      rfl

namespace Program

def runLinesOn (file : String) : List String -> StateM Stack (Option Diagnostic)
  | [] => pure none
  | line :: rest => do
      match ← Source.runOn ⟨file, line⟩ with
      | .error d => pure (some d)
      | .ok _ => runLinesOn file rest

theorem run_runLinesOn (file : String) (lines : List String) (scope : Scope) :
    (runLinesOn file lines).run scope.stack =
      ((runLines file lines scope).failure, (runLines file lines scope).scope.stack) := by
  induction lines generalizing scope with
  | nil => rfl
  | cons line rest ih =>
      have hfirst := Source.run_runOn ⟨file, line⟩ scope
      cases hresult : (Source.run ⟨file, line⟩ scope).result with
      | error d =>
          rw [hresult] at hfirst
          simp only [runLinesOn, runLines, hresult, StateT.run_bind, hfirst]
          rfl
      | ok value =>
          rw [hresult] at hfirst
          simp only [runLinesOn, runLines, hresult, StateT.run_bind, hfirst]
          exact ih _

end Program

/-! ## What is done in a session -/

namespace Session

/-- What can be done in the current context of a session. -/
inductive Action where
  | set (name : String) (value : Value)
  | remove (name : String)
  | eval (tree : Expr)
  | run (source : Source)
  | program (source : Source)
  | enter (name : String) (entry : Option Location) (linked : Bool)
  | leave

def act (s : Session) : Action -> Session
  | .set name value => { s with scope := s.scope.insert name value }
  | .remove name => { s with scope := s.scope.erase name }
  | .eval tree => { s with scope := (tree.eval s.scope).scope }
  | .run source => { s with scope := (source.run s.scope).scope }
  | .program source => { s with scope := (source.runProgram s.scope).scope }
  | .enter name entry linked => s.enter name entry linked
  | .leave => s.leave

def acts (s : Session) (actions : List Action) : Session :=
  actions.foldl act s

theorem acts_append (s : Session) (as bs : List Action) :
    s.acts (as ++ bs) = (s.acts as).acts bs :=
  List.foldl_append

/-- What a command does to the session; one that only asks does nothing. -/
def Command.actions : Command -> List Action
  | run source => [.run source]
  | eval source => [.run source]
  | program source => [.program source]
  | remove name => [.remove name]
  | set name number => [.set name ⟨number, none⟩]
  | enter name entry linked => [.enter name entry linked]
  | leave => [.leave]
  | get _ | contains _ | size | traceback _ => []

theorem step_acts (s : Session) (command : Command) :
    (s.step command).1 = s.acts command.actions := by
  cases command with
  | eval source =>
      have hscope := source.scope_runIn_eq_run s.context s.scope
      simp only [step, Command.actions, acts, List.foldl_cons, List.foldl_nil, act, hscope]
  | run | program | get | remove | set | contains | size | traceback | enter | leave => rfl

/-- The session after each command is the one that the actions so far lead to. -/
theorem steps_acts (s : Session) {commands : List Command} {n : Nat} {next : Session}
    {answer : Answer} (h : (s.steps commands)[n]? = some (next, answer)) :
    next = s.acts ((commands.take (n + 1)).flatMap Command.actions) := by
  induction commands generalizing s n with
  | nil => cases h
  | cons command rest ih =>
      rw [List.take_succ_cons, List.flatMap_cons, acts_append, ← step_acts]
      cases n with
      | zero => exact congrArg Prod.fst (Option.some.inj h).symm
      | succ n => exact ih _ h

end Session

/-- A stack of maps, of which as many as `depth` can be left. -/
structure Nest where
  stack : Stack
  depth : Nat

namespace Nest

def leave (k : Nest) : Nest :=
  match k.depth, k.stack.below with
  | depth + 1, top :: below => ⟨⟨top, below⟩, depth⟩
  | _, _ => k

def act (k : Nest) : Session.Action -> Nest
  | .set name value => { k with stack := k.stack.insert name value }
  | .remove name => { k with stack := k.stack.erase name }
  | .eval tree => { k with stack := (tree.evalOn.run.run k.stack).2 }
  | .run source => { k with stack := (source.runOn.run k.stack).2 }
  | .program source =>
      let lines := Program.runLinesOn source.name (Program.lines source.text)
      { k with stack := (lines.run k.stack).2 }
  | .enter _ _ _ => ⟨k.stack.push, k.depth + 1⟩
  | .leave => k.leave

def acts (k : Nest) (actions : List Session.Action) : Nest :=
  actions.foldl act k

end Nest

namespace Session

def nest (s : Session) : Nest :=
  ⟨s.scope.stack, s.depth⟩

theorem nest_leave (s : Session) : s.leave.nest = s.nest.leave := by
  obtain ⟨context, ⟨table, outer⟩, suspended⟩ := s
  cases suspended with
  | nil => rfl
  | cons back suspended =>
      cases outer with
      | nil => rfl
      | cons next outer => rfl

/-- Each action does to the maps of a session what it does to a stack. -/
theorem nest_act (s : Session) (action : Action) : (s.act action).nest = s.nest.act action := by
  cases action with
  | set name value => simp [act, nest, Nest.act, depth]
  | remove name => simp [act, nest, Nest.act, depth]
  | eval tree => simp [act, nest, Nest.act, depth, tree.run_evalOn]
  | run source => simp [act, nest, Nest.act, depth, source.run_runOn]
  | program source =>
      simp [act, nest, Nest.act, depth, Program.run_runLinesOn, Source.runProgram]
  | enter name entry linked => simp [act, nest, Nest.act, depth, enter]
  | leave => exact s.nest_leave

theorem nest_acts (s : Session) (actions : List Action) :
    (s.acts actions).nest = s.nest.acts actions := by
  induction actions generalizing s with
  | nil => rfl
  | cons action rest ih =>
      have hrest := ih (s.act action)
      rw [nest_act] at hrest
      exact hrest

/-! ## What is done inside stays inside -/

/-- The level that actions lead to from a given one; none if they leave level zero. -/
def level? : Nat -> List Action -> Option Nat
  | n, [] => some n
  | n, .enter _ _ _ :: rest => level? (n + 1) rest
  | 0, .leave :: _ => none
  | n + 1, .leave :: rest => level? n rest
  | n, _ :: rest => level? n rest

/-- A session `n` levels below one entered from another, which is all still there. -/
structure Inside (base : Session) (n : Nat) (s : Session) : Prop where
  tables : ∃ between, between.length = n ∧ s.scope.outer = between ++ base.scope.tables
  contexts : ∃ between, between.length = n ∧
    s.suspended = between ++ base.context :: base.suspended

variable {base s : Session} {n m : Nat}

theorem inside_enter (base : Session) (name : String) (entry : Option Location) (linked : Bool) :
    Inside base 0 (base.enter name entry linked) where
  tables := ⟨[], rfl, rfl⟩
  contexts := ⟨[], rfl, rfl⟩

namespace Inside

theorem of_outer_eq (h : Inside base n s) {scope : Scope} (houter : scope.outer = s.scope.outer) :
    Inside base n { s with scope := scope } where
  tables := by
    obtain ⟨between, hlength, htables⟩ := h.tables
    exact ⟨between, hlength, houter.trans htables⟩
  contexts := h.contexts

theorem enter (h : Inside base n s) (name : String) (entry : Option Location) (linked : Bool) :
    Inside base (n + 1) (s.enter name entry linked) where
  tables := by
    obtain ⟨between, hlength, htables⟩ := h.tables
    exact ⟨s.scope.table :: between, by simp [hlength], congrArg (s.scope.table :: ·) htables⟩
  contexts := by
    obtain ⟨between, hlength, hcontexts⟩ := h.contexts
    exact ⟨s.context :: between, by simp [hlength], congrArg (s.context :: ·) hcontexts⟩

theorem leave_eq {context : Context} {suspended : List Context} {table : Table}
    {outer : List Table} (hsuspended : s.suspended = context :: suspended)
    (houter : s.scope.outer = table :: outer) : s.leave = ⟨context, ⟨table, outer⟩, suspended⟩ := by
  rw [Session.leave, hsuspended, houter]

theorem leave (h : Inside base (n + 1) s) : Inside base n s.leave := by
  obtain ⟨between, hlength, htables⟩ := h.tables
  obtain ⟨between', hlength', hcontexts⟩ := h.contexts
  obtain ⟨table, between, rfl⟩ := List.exists_cons_of_length_eq_add_one hlength
  obtain ⟨context, between', rfl⟩ := List.exists_cons_of_length_eq_add_one hlength'
  rw [leave_eq hcontexts htables]
  exact ⟨⟨between, Nat.succ.inj hlength, rfl⟩, ⟨between', Nat.succ.inj hlength', rfl⟩⟩

theorem leave_zero (h : Inside base 0 s) : s.leave = base := by
  obtain ⟨between, hlength, htables⟩ := h.tables
  obtain ⟨between', hlength', hcontexts⟩ := h.contexts
  cases List.length_eq_zero_iff.mp hlength
  cases List.length_eq_zero_iff.mp hlength'
  exact leave_eq hcontexts htables

/-- Leaving every level gives back the session outside. -/
theorem iterate_leave (h : Inside base n s) : Session.leave^[n + 1] s = base := by
  induction n generalizing s with
  | zero => exact h.leave_zero
  | succ n ih => exact ih h.leave

/-- No action inside changes what is outside. -/
theorem acts {actions : List Action} (h : Inside base n s) (hlevel : level? n actions = some m) :
    Inside base m (s.acts actions) := by
  induction actions generalizing n s with
  | nil =>
      cases hlevel
      exact h
  | cons action rest ih =>
      cases action with
      | set name value => exact ih (h.of_outer_eq rfl) hlevel
      | remove name => exact ih (h.of_outer_eq rfl) hlevel
      | eval tree =>
          exact ih (h.of_outer_eq (by rw [tree.scope_eval, Scope.outer_insertAll])) hlevel
      | run source =>
          exact ih (h.of_outer_eq (by rw [source.scope_run, Scope.outer_insertAll])) hlevel
      | program source =>
          have houter : (source.runProgram s.scope).scope.outer = s.scope.outer := by
            rw [Source.runProgram, Program.scope_runLines, Scope.outer_insertAll]
          exact ih (h.of_outer_eq houter) hlevel
      | enter name entry linked => exact ih (h.enter name entry linked) hlevel
      | leave =>
          cases n with
          | zero => cases hlevel
          | succ n => exact ih h.leave hlevel

end Inside

/--
Whatever is done in a session, its tables are a stack of finite maps to which the same was
done.

A name has its value in the innermost map that has the name, and is contained exactly if it
has a value; the size is that of the innermost map; evaluation computes what it computes on
the stack.  Nothing that is done after entering a context, however deep, changes the tables
outside, and leaving gives back the session as it was.  The commands of a session do
nothing else.
-/
theorem acts_refine (start : Session) (actions : List Action) :
    let s := start.acts actions
    s.nest = start.nest.acts actions ∧
      (∀ name value, s.scope.find? name = some value ↔ s.nest.stack.Holds name value) ∧
      (∀ name, s.scope.contains name ↔ ∃ value, s.scope.find? name = some value) ∧
      s.scope.table.size = s.nest.stack.top.keys.card ∧
      (∀ tree : Expr, (tree.eval s.scope).result = (tree.evalOn.run.run s.nest.stack).1) ∧
      (∀ name entry linked inner n, level? 0 inner = some n ->
        Inside s n ((s.enter name entry linked).acts inner) ∧
        Session.leave^[n + 1] ((s.enter name entry linked).acts inner) = s) ∧
      ∀ commands n next answer, (s.steps commands)[n]? = some (next, answer) ->
        next = s.acts ((commands.take (n + 1)).flatMap Command.actions) := by
  intro s
  refine ⟨start.nest_acts actions, ?_, ?_, ?_, ?_, ?_, fun _ _ _ _ => s.steps_acts⟩
  · intro name value
    rw [← Stack.lookup_eq_some_iff]
    exact Eq.congr_left (s.scope.lookup_stack name).symm
  · intro name
    rw [Scope.contains_eq_isSome, Option.isSome_iff_exists]
  · exact s.scope.card_keys_top.symm
  · intro tree
    exact (congrArg Prod.fst (tree.run_evalOn s.scope)).symm
  · intro name entry linked inner n hlevel
    have hinside := (inside_enter s name entry linked).acts hlevel
    exact ⟨hinside, hinside.iterate_leave⟩

def child : Session :=
  (start "<root>" .globals).acts
    [.run ⟨"text", "var x=null"⟩, .enter "child" (some ⟨⟨"text", ""⟩, .zero⟩) true]

/-- Removals of outer names, a level that is left again, a run that fails and a further level. -/
def errands : List Action :=
  [.remove "x", .set "null" ⟨.int 7, none⟩, .enter "deep" none false, .remove "null", .leave,
    .run ⟨"text", "(var x=null)/y"⟩, .enter "deeper" none true]

/-- Leaving twice gives back the child, with its own size and names. -/
theorem acts_refine_errands :
    level? 0 errands = some 1 ∧
      ((child.enter "grandchild" none true).acts errands).leave.leave = child ∧
      child.scope.table.size = child.nest.stack.top.keys.card := by
  obtain ⟨-, -, -, hsize, -, hinside, -⟩ := acts_refine (start "<root>" .globals)
    [.run ⟨"text", "var x=null"⟩, .enter "child" (some ⟨⟨"text", ""⟩, .zero⟩) true]
  exact ⟨rfl, (hinside "grandchild" none true errands 1 rfl).2, hsize⟩

end Session

end Abacus
