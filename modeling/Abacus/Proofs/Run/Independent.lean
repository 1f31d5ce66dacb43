import Mathlib
import Abacus.Proofs.Run.Bindings
import Abacus.Proofs.Scope.Stack

/-!
# Independent runs

A run sees the scope only through the names that its expression reads, and changes it
only at the names that its expression assigns.  Two runs of which neither touches what
the other one reads or assigns can be done in either order.
-/

namespace Abacus

open Eval

/-! ## Binding names in scopes that agree -/

namespace Scope

variable {s t : Scope} {name : String} {bindings as bs : List (String × Value)}

theorem find?_insertAll_congr (h : s.find? name = t.find? name) :
    (s.insertAll bindings).find? name = (t.insertAll bindings).find? name := by
  induction bindings generalizing s t with
  | nil => exact h
  | cons binding rest ih =>
      apply ih
      simp only [find?_insert, h]

theorem table_find?_insertAll_congr (h : s.table.find? name = t.table.find? name) :
    (s.insertAll bindings).table.find? name = (t.insertAll bindings).table.find? name := by
  induction bindings generalizing s t with
  | nil => exact h
  | cons binding rest ih =>
      apply ih
      simp only [insert, Table.find?_insert, h]

theorem find?_insertAll_eq (h : name ∉ bindings.map Prod.fst) :
    (s.insertAll bindings).find? name = s.find? name := by
  simp only [find?, tables, List.findSome?_cons, outer_insertAll, find?_insertAll_of_not_mem h]

theorem find?_insertAll_swap (h : name ∉ bs.map Prod.fst) :
    ((s.insertAll as).insertAll bs).table.find? name =
      ((s.insertAll bs).insertAll as).table.find? name := by
  rw [find?_insertAll_of_not_mem h]
  apply table_find?_insertAll_congr
  rw [find?_insertAll_of_not_mem h]

/-- Bindings of different names can be made in either order. -/
theorem stack_insertAll_comm (h : (as.map Prod.fst).Disjoint (bs.map Prod.fst)) :
    ((s.insertAll as).insertAll bs).stack = ((s.insertAll bs).insertAll as).stack := by
  have htable : ((s.insertAll as).insertAll bs).table.bindings =
      ((s.insertAll bs).insertAll as).table.bindings := by
    rw [Table.bindings_eq_iff]
    intro name
    by_cases hname : name ∈ bs.map Prod.fst
    · exact (find?_insertAll_swap fun hmem => h hmem hname).symm
    · exact find?_insertAll_swap hname
  simp only [stack, htable, outer_insertAll]

end Scope

/-! ## Evaluation sees only the names it reads -/

namespace Expr

def access? : Expr -> Option String
  | access name _ => some name
  | _ => none

def accesses (nodes : List Expr) : List String :=
  nodes.filterMap access?

theorem accesses_append (as bs : List Expr) :
    accesses (as ++ bs) = accesses as ++ accesses bs :=
  List.filterMap_append

/-- Two scopes that an expression cannot tell apart. -/
def Agree (tree : Expr) (s t : Scope) : Prop :=
  ∀ name ∈ accesses tree.postorder, s.find? name = t.find? name

/-- In scopes that agree, evaluation has the same result and makes the same assignments. -/
theorem Agree.eval_eq {tree : Expr} {s t : Scope} (h : tree.Agree s t) :
    (tree.eval s).result = (tree.eval t).result ∧
      (tree.eval s).assigned = (tree.eval t).assigned := by
  induction tree generalizing s t with
  | literal value mark => exact ⟨rfl, rfl⟩
  | access name mark =>
      have hname : s.find? name = t.find? name := h name (List.mem_singleton.mpr rfl)
      simp only [eval, hname]
      cases t.find? name with
      | none => exact ⟨rfl, rfl⟩
      | some value => exact ⟨rfl, rfl⟩
  | assign name mark body ih =>
      obtain ⟨hresult, hassigned⟩ := ih fun other hother =>
        h other (by simp [postorder, accesses_append, hother])
      simp only [eval, hresult, hassigned]
      cases (body.eval t).result with
      | error fault => exact ⟨rfl, rfl⟩
      | ok value => exact ⟨rfl, rfl⟩
  | unary sign mark operand ih =>
      obtain ⟨hresult, hassigned⟩ := ih fun other hother =>
        h other (by simp [postorder, accesses_append, hother])
      simp only [eval, hresult, hassigned]
      cases (operand.eval t).result with
      | error fault => exact ⟨rfl, rfl⟩
      | ok value => exact ⟨rfl, rfl⟩
  | binary op mark left right ihleft ihright =>
      obtain ⟨hleft, hassigned⟩ := ihleft fun other hother =>
        h other (by simp [postorder, accesses_append, hother])
      have hagree : right.Agree (left.eval s).scope (left.eval t).scope := by
        intro other hother
        rw [scope_eval, scope_eval, hassigned]
        apply Scope.find?_insertAll_congr
        exact h other (by simp [postorder, accesses_append, hother])
      obtain ⟨hright, hassigned'⟩ := ihright hagree
      simp only [eval, hleft, hassigned, hright, hassigned']
      cases (left.eval t).result with
      | error fault => exact ⟨rfl, rfl⟩
      | ok a =>
          cases (right.eval (left.eval t).scope).result with
          | error fault => exact ⟨rfl, rfl⟩
          | ok b =>
              dsimp only
              cases op.value? a.number b.number with
              | none => exact ⟨rfl, rfl⟩
              | some n => exact ⟨rfl, rfl⟩

end Expr

/-! ## Runs -/

namespace Source

/-- The names that the expression of a source assigns; none if there is no expression. -/
def writes (s : Source) : List String :=
  match s.read with
  | .ok tree => Expr.targets tree.postorder
  | .error _ => []

def reads (s : Source) : List String :=
  match s.read with
  | .ok tree => Expr.accesses tree.postorder
  | .error _ => []

theorem mem_writes_of_bindings {s : Source} {scope : Scope} {name : String}
    (h : name ∈ (Event.bindings (s.run scope).events).map Prod.fst) : name ∈ s.writes := by
  obtain ⟨binding, hmem, rfl⟩ := List.mem_map.mp h
  obtain ⟨tree, hread, hassigned⟩ := exists_read_of_bindings hmem
  simpa only [writes, hread] using Expr.mem_targets_of_assigned (List.mem_map_of_mem hassigned)

/-- In scopes that agree on the names read, a run has the same result and binds the same. -/
theorem run_agree {s : Source} {a b : Scope} (h : ∀ name ∈ s.reads, a.find? name = b.find? name) :
    (s.run a).result = (s.run b).result ∧
      Event.bindings (s.run a).events = Event.bindings (s.run b).events := by
  cases hread : s.read with
  | error d =>
      rw [bindings_run_of_error hread, bindings_run_of_error hread]
      refine ⟨?_, rfl⟩
      rw [run, (runIn_of_read_error hread program a).1, run,
        (runIn_of_read_error hread program b).1]
  | ok tree =>
      simp only [reads, hread] at h
      obtain ⟨tokens, hscan, hparse⟩ := read_eq_ok_iff.mp hread
      obtain ⟨hresult, hassigned⟩ := Expr.Agree.eval_eq h
      rw [bindings_run_of_ok hread, bindings_run_of_ok hread, run, run,
        result_runIn hscan hparse, result_runIn hscan hparse, hresult]
      exact ⟨rfl, hassigned⟩

/-- Neither of two sources assigns what the other one reads or assigns. -/
structure Independent (s t : Source) : Prop where
  writes_reads : s.writes.Disjoint t.reads
  writes_writes : s.writes.Disjoint t.writes
  reads_writes : t.writes.Disjoint s.reads

theorem find?_run_of_disjoint {s t : Source} (h : s.writes.Disjoint t.reads) (scope : Scope) :
    ∀ name ∈ t.reads, (s.run scope).scope.find? name = scope.find? name := by
  intro name hname
  rw [scope_run]
  exact Scope.find?_insertAll_eq fun hmem => h (mem_writes_of_bindings hmem) hname

theorem scope_run_run {s t : Source} (h : s.writes.Disjoint t.reads) (scope : Scope) :
    (t.run (s.run scope).scope).scope =
      (scope.insertAll (Event.bindings (s.run scope).events)).insertAll
        (Event.bindings (t.run scope).events) := by
  rw [scope_run t, (run_agree (find?_run_of_disjoint h scope)).2, scope_run s]

/--
Independent sources can be run in either order, from every scope.

Each has the same result, and both orders leave the same scope, whether the runs succeed or
fail part way.
-/
theorem run_commute {s t : Source} (h : Independent s t) (scope : Scope) :
    (s.run scope).result = (s.run (t.run scope).scope).result ∧
      (t.run (s.run scope).scope).result = (t.run scope).result ∧
      (t.run (s.run scope).scope).scope.stack = (s.run (t.run scope).scope).scope.stack := by
  refine ⟨?_, ?_, ?_⟩
  · exact (run_agree (find?_run_of_disjoint h.reads_writes scope)).1.symm
  · exact (run_agree (find?_run_of_disjoint h.writes_reads scope)).1
  · rw [scope_run_run h.writes_reads, scope_run_run h.reads_writes]
    apply Scope.stack_insertAll_comm
    intro name hname hname'
    exact h.writes_writes (mem_writes_of_bindings hname) (mem_writes_of_bindings hname')

/-! Two sources that each bind a name and then fail, and two that bind the same names and
succeed. -/

def divided : Source :=
  ⟨"first", "(var x=null)/null"⟩

def missing : Source :=
  ⟨"second", "(var y=null)+z"⟩

def settled : Source :=
  ⟨"third", "var x=null+null"⟩

def copied : Source :=
  ⟨"fourth", "var y=null"⟩

/-- Two failures can change places, and so can two values. -/
theorem run_commute_pairs :
    Independent divided missing ∧
      (divided.run (.ofTable .globals)).result.isOk = false ∧
      (missing.run (.ofTable .globals)).result.isOk = false ∧
      (missing.run (divided.run (.ofTable .globals)).scope).scope.stack =
        (divided.run (missing.run (.ofTable .globals)).scope).scope.stack ∧
    Independent settled copied ∧
      (settled.run (.ofTable .globals)).result.isOk = true ∧
      (copied.run (.ofTable .globals)).result.isOk = true ∧
      (copied.run (settled.run (.ofTable .globals)).scope).result =
        (copied.run (.ofTable .globals)).result ∧
      (copied.run (settled.run (.ofTable .globals)).scope).scope.stack =
        (settled.run (copied.run (.ofTable .globals)).scope).scope.stack := by
  have hdivided : divided.writes = ["x"] ∧ divided.reads = ["null", "null"] := by
    constructor <;> cbv
  have hmissing : missing.writes = ["y"] ∧ missing.reads = ["null", "z"] := by
    constructor <;> cbv
  have hsettled : settled.writes = ["x"] ∧ settled.reads = ["null", "null"] := by
    constructor <;> cbv
  have hcopied : copied.writes = ["y"] ∧ copied.reads = ["null"] := by
    constructor <;> cbv
  have hfailing : Independent divided missing :=
    ⟨by simp [hdivided, hmissing], by simp [hdivided, hmissing], by simp [hdivided, hmissing]⟩
  have hsucceeding : Independent settled copied :=
    ⟨by simp [hsettled, hcopied], by simp [hsettled, hcopied], by simp [hsettled, hcopied]⟩
  exact ⟨hfailing, by cbv, by cbv, (run_commute hfailing _).2.2, hsucceeding, by cbv, by cbv,
    (run_commute hsucceeding _).2⟩

end Source

end Abacus
