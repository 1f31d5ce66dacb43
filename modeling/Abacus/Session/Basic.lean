import Abacus.Run.Program

/-!
# Sessions

A session evaluates in a context that can be entered and left again.  Each level
has a table of its own, through which the tables outside are still seen.
-/

namespace Abacus

/-- The current context with its scope, and the contexts to which leaving goes back. -/
structure Session where
  context : Context
  scope : Scope
  suspended : List Context

namespace Session

def start (name : String) (table : Table) : Session :=
  ⟨Context.root name, Scope.ofTable table, []⟩

def depth (s : Session) : Nat :=
  s.suspended.length

/-- Goes into a new context; one that is not linked to the current context has no callers. -/
def enter (s : Session) (name : String) (entry : Option Location) (linked : Bool) : Session :=
  { context := if linked then s.context.child name entry else ⟨⟨name, entry⟩, []⟩
    scope := s.scope.enter
    suspended := s.context :: s.suspended }

def leave (s : Session) : Session :=
  match s.suspended, s.scope.outer with
  | context :: suspended, table :: outer => ⟨context, ⟨table, outer⟩, suspended⟩
  | _, _ => s

inductive Command where
  | run (source : Source)
  | eval (source : Source)
  | program (source : Source)
  | get (name : String)
  | remove (name : String)
  | set (name : String) (number : Number)
  | contains (name : String)
  | size
  | traceback (place : Location)
  | enter (name : String) (entry : Option Location) (linked : Bool)
  | leave

inductive Answer where
  | result (r : Except Diagnostic Value)
  | program (r : Program.Run)
  | value (v : Option Value)
  | done
  | contains (b : Bool)
  | empty (b : Bool)
  | frames (frames : List Frame)
  | depth (n : Nat)

def step (s : Session) : Command -> Session × Answer
  | .run source =>
      let r := source.run s.scope
      ({ s with scope := r.scope }, .result r.result)
  | .eval source =>
      let r := source.runIn s.context s.scope
      ({ s with scope := r.scope }, .result r.result)
  | .program source =>
      let r := source.runProgram s.scope
      ({ s with scope := r.scope }, .program r)
  | .get name => (s, .value (s.scope.find? name))
  | .remove name =>
      ({ s with scope := s.scope.erase name }, .value (s.scope.table.find? name))
  | .set name number =>
      ({ s with scope := s.scope.insert name ⟨number, none⟩ }, .done)
  | .contains name => (s, .contains (s.scope.contains name))
  | .size => (s, .empty s.scope.table.isEmpty)
  | .traceback place => (s, .frames (s.context.traceback place))
  | .enter name entry linked =>
      let inner := s.enter name entry linked
      (inner, .depth inner.depth)
  | .leave =>
      let outer := s.leave
      (outer, .depth outer.depth)

def steps (s : Session) : List Command -> List (Session × Answer)
  | [] => []
  | c :: cs =>
      let next := s.step c
      next :: steps next.1 cs

end Session

end Abacus
