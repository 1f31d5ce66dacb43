import Mathlib
import Abacus.Proofs.Expr.RoundTrip
import Abacus.Proofs.Run.Bindings
import Abacus.Proofs.Run.Spans
import Abacus.Proofs.Scope.Stack

/-!
# Where bindings come from

A scope that starts with the globals and is changed by runs alone has a history, which is
the list of these runs.  Every binding in it was made by the last run that assigned its
name, and stands in the text of that run.  The one exception is `null` as long as no run
assigns it.
-/

namespace Abacus

open Eval

/-! ## What one run binds -/

/-- A name is found after some bindings by the last of them that binds it, or as before. -/
theorem Scope.last_of_find?_insertAll {s : Scope} {bindings : List (String × Value)}
    {name : String} {value : Value} (h : (s.insertAll bindings).table.find? name = some value) :
    (∃ earlier later, bindings = earlier ++ (name, value) :: later ∧
      name ∉ later.map Prod.fst) ∨
      name ∉ bindings.map Prod.fst ∧ s.table.find? name = some value := by
  induction bindings generalizing s with
  | nil => exact .inr ⟨List.not_mem_nil, h⟩
  | cons binding rest ih =>
      obtain ⟨key, bound⟩ := binding
      rcases ih h with ⟨earlier, later, rfl, hlater⟩ | ⟨hrest, hfound⟩
      · exact .inl ⟨(key, bound) :: earlier, later, rfl, hlater⟩
      · by_cases hname : key = name
        · simp only [insert, Table.find?_insert, if_pos hname, Option.some.injEq] at hfound
          subst hname hfound
          exact .inl ⟨[], rest, rfl, hrest⟩
        · simp only [insert, Table.find?_insert, if_neg hname] at hfound
          refine .inr ⟨?_, hfound⟩
          simp [Ne.symm hname, hrest]

theorem Scope.contains_of_insertAll {s : Scope} {bindings : List (String × Value)}
    {name : String} (h : s.contains name) : (s.insertAll bindings).contains name := by
  simp only [contains, tables, List.any_cons, Bool.or_eq_true, outer_insertAll] at h ⊢
  exact h.imp_left contains_insertAll

namespace Eval

variable {P : Span -> Prop} {st next last : State} {node : Expr} {nodes : List Expr}

theorem Step.stamped_assigned (h : Step st node next) (hvalues : Stamped P st.values)
    (hassigned : Stamped P (st.assigned.map Prod.snd)) :
    Stamped P (next.assigned.map Prod.snd) := by
  cases h with
  | assign =>
      intro v hv
      rw [List.map_append, List.mem_append] at hv
      rcases hv with hv | hv
      · exact hassigned v hv
      · rw [List.mem_singleton.mp hv]
        exact hvalues _ (List.mem_cons_self ..)
  | _ => exact hassigned

theorem Steps.stamped_assigned (h : Steps st nodes last) (hnodes : ∀ node ∈ nodes, P node.span)
    (hvalues : Stamped P st.values) (hassigned : Stamped P (st.assigned.map Prod.snd)) :
    Stamped P (last.assigned.map Prod.snd) := by
  induction h with
  | nil => exact hassigned
  | cons first rest ih =>
      rw [List.forall_mem_cons] at hnodes
      exact ih hnodes.2 (first.stamped hnodes.1 hvalues)
        (first.stamped_assigned hvalues hassigned)

end Eval

theorem Expr.Writable.isIdentifier {tree : Expr} {name : String} (h : tree.Writable)
    (hname : name ∈ targets tree.postorder) : Scan.IsIdentifier name := by
  induction tree with
  | literal value mark => cases hname
  | access other mark => cases hname
  | assign other mark body ih =>
      rw [postorder, targets_append, List.mem_append] at hname
      rcases hname with hname | hname
      · exact ih h.2 hname
      · rw [List.mem_singleton.mp hname]
        exact h.1
  | unary sign mark operand ih =>
      rw [postorder, targets_append, List.mem_append] at hname
      rcases hname with hname | hname
      · exact ih h hname
      · cases hname
  | binary op mark left right ihleft ihright =>
      rw [postorder, targets_append, targets_append, List.mem_append, List.mem_append] at hname
      rcases hname with hname | hname | hname
      · exact ihleft h.1 hname
      · exact ihright h.2 hname
      · cases hname

namespace Source

variable {s : Source} {scope : Scope}

theorem isIdentifier_of_bindings {name : String}
    (h : name ∈ (Event.bindings (s.run scope).events).map Prod.fst) : Scan.IsIdentifier name := by
  obtain ⟨binding, hmem, rfl⟩ := List.mem_map.mp h
  obtain ⟨tree, hread, hassigned⟩ := exists_read_of_bindings hmem
  obtain ⟨tokens, hscan, hparse⟩ := read_eq_ok_iff.mp hread
  have htarget := Expr.mem_targets_of_assigned (List.mem_map_of_mem hassigned)
  exact (Expr.writable_of_parse hscan hparse).isIdentifier htarget

/-- What a run binds stands in the text of the run. -/
theorem proper_of_bindings {name : String} {value : Value}
    (h : (name, value) ∈ Event.bindings (s.run scope).events) :
    ∃ span, value.span = some span ∧ span.Proper s := by
  obtain ⟨tree, hread, hassigned⟩ := exists_read_of_bindings h
  obtain ⟨done, rest, values, hnodes, hdone⟩ := exists_performed tree scope
  have hproper : ∀ node ∈ done, node.span.Proper s := by
    intro node hnode
    exact (proper_of_read hread (hnodes ▸ List.mem_append_left rest hnode)).1
  have hstamped := hdone.steps.stamped_assigned hproper nofun nofun
  exact hstamped value (List.mem_map_of_mem hassigned)

end Source

theorem Scan.IsIdentifier.scan_eq {name : String} (h : IsIdentifier name) (file : String) :
    ∃ mark stop, Source.scan ⟨file, name⟩ = .ok [⟨.identifier name, mark⟩, ⟨.eof, stop⟩] := by
  exact ⟨_, _, Source.scan_eq_ok_iff.mpr ((Expr.lexeme_identifier h).scans ⟨file, name⟩ .zero)⟩

theorem Scan.IsIdentifier.ne_keyword {name : String} (h : IsIdentifier name) (k : Keyword) :
    name ≠ k.text := by
  rintro rfl
  cases (Keyword.ofWord?_text k).symm.trans h.2

/-! ## Histories -/

namespace History

structure Turn where
  source : Source
  scope : Scope

def Turn.bindings (t : Turn) : List (String × Value) :=
  Event.bindings (t.source.run t.scope).events

/-- Turns from the globals on, each in the scope that the one before it leaves. -/
inductive Reached : List Turn -> Scope -> Prop where
  | start : Reached [] (.ofTable .globals)
  | turn {turns : List Turn} {scope : Scope} (h : Reached turns scope) (source : Source) :
      Reached (turns ++ [⟨source, scope⟩]) (source.run scope).scope

/-- Where a binding comes from. -/
inductive Origin (turns : List Turn) : String -> Value -> Prop where
  /-- The last turn that assigns the name, in whose text the value stands. -/
  | assigned {before after : List Turn} {t : Turn} {name : String} {value : Value} {span : Span}
      (split : turns = before ++ t :: after)
      (last : ∃ earlier later, t.bindings = earlier ++ (name, value) :: later ∧
        name ∉ later.map Prod.fst)
      (kept : ∀ u ∈ after, name ∉ u.bindings.map Prod.fst)
      (span_eq : value.span = some span) (proper : span.Proper t.source) : Origin turns name value
  /-- The binding that every session starts with. -/
  | initial (kept : ∀ u ∈ turns, "null" ∉ u.bindings.map Prod.fst) :
      Origin turns "null" ⟨.int 0, none⟩

/-- What can be asked of a session with one scope. -/
inductive Call where
  | run (source : Source)
  | program (source : Source)

/-- The turns of lines, which end with the first that fails. -/
def lineTurns (file : String) : List String -> Scope -> List Turn
  | [], _ => []
  | line :: rest, scope =>
      let first := Source.run ⟨file, line⟩ scope
      ⟨⟨file, line⟩, scope⟩ ::
        match first.result with
        | .error _ => []
        | .ok _ => lineTurns file rest first.scope

namespace Call

def perform (scope : Scope) : Call -> Scope
  | run source => (source.run scope).scope
  | program source => (source.runProgram scope).scope

def turns (scope : Scope) : Call -> List Turn
  | run source => [⟨source, scope⟩]
  | program source => lineTurns source.name (Program.lines source.text) scope

end Call

def turnsFrom (scope : Scope) : List Call -> List Turn
  | [] => []
  | call :: rest => call.turns scope ++ turnsFrom (call.perform scope) rest

def turnsOf (calls : List Call) : List Turn :=
  turnsFrom (.ofTable .globals) calls

def scopeOf (calls : List Call) : Scope :=
  calls.foldl Call.perform (.ofTable .globals)

/-! ## Origins -/

variable {turns : List Turn} {scope : Scope} {name : String} {value : Value}

theorem not_mem_append {t : Turn} (kept : ∀ u ∈ turns, name ∉ u.bindings.map Prod.fst)
    (ht : name ∉ t.bindings.map Prod.fst) :
    ∀ u ∈ turns ++ [t], name ∉ u.bindings.map Prod.fst := by
  rw [List.forall_mem_append]
  exact ⟨kept, fun u hu => List.mem_singleton.mp hu ▸ ht⟩

theorem Origin.append (h : Origin turns name value) {t : Turn}
    (ht : name ∉ t.bindings.map Prod.fst) : Origin (turns ++ [t]) name value := by
  cases h with
  | @assigned before after u _ _ span split last kept span_eq proper =>
      have hsplit : turns ++ [t] = before ++ u :: (after ++ [t]) := by
        rw [split, List.append_assoc, List.cons_append]
      exact .assigned hsplit last (not_mem_append kept ht) span_eq proper
  | initial kept => exact .initial (not_mem_append kept ht)

theorem isIdentifier_null : Scan.IsIdentifier "null" :=
  ⟨.mk rfl (List.all_eq_true.mp rfl), rfl⟩

theorem Origin.isIdentifier (h : Origin turns name value) : Scan.IsIdentifier name := by
  cases h with
  | @assigned _ _ t _ _ _ split last =>
      obtain ⟨earlier, later, hbindings, -⟩ := last
      have hmem : name ∈ t.bindings.map Prod.fst := by simp [hbindings]
      exact Source.isIdentifier_of_bindings hmem
  | initial => exact isIdentifier_null

namespace Reached

theorem outer_eq (h : Reached turns scope) : scope.outer = [] := by
  induction h with
  | start => rfl
  | turn h source ih => rw [source.scope_run, Scope.outer_insertAll, ih]

theorem find?_eq (h : Reached turns scope) (name : String) :
    scope.find? name = scope.table.find? name := by
  simp only [Scope.find?, Scope.tables, h.outer_eq, List.findSome?_cons, List.findSome?_nil]
  cases scope.table.find? name with
  | none => rfl
  | some value => rfl

theorem eq_null_of_start (h : (Scope.ofTable .globals).table.find? name = some value) :
    name = "null" ∧ value = ⟨.int 0, none⟩ := by
  change (Table.empty.insert "null" ⟨.int 0, none⟩).find? name = some value at h
  rw [Table.find?_insert] at h
  split at h
  · next hname =>
      cases h
      exact ⟨hname.symm, rfl⟩
  · cases h

/-- Every binding of a scope with a history has an origin in it. -/
theorem origin (h : Reached turns scope) (hfound : scope.table.find? name = some value) :
    Origin turns name value := by
  induction h with
  | start =>
      obtain ⟨rfl, rfl⟩ := eq_null_of_start hfound
      exact .initial nofun
  | @turn turns scope h source ih =>
      rw [source.scope_run] at hfound
      rcases Scope.last_of_find?_insertAll hfound with
        ⟨earlier, later, hbindings, hlater⟩ | ⟨hkept, hfound⟩
      · have hmem : (name, value) ∈ Event.bindings (source.run scope).events := by
          simp [hbindings]
        obtain ⟨span, hspan, hproper⟩ := Source.proper_of_bindings hmem
        exact .assigned rfl ⟨earlier, later, hbindings, hlater⟩ nofun hspan hproper
      · exact (ih hfound).append hkept

end Reached

/-! ## Calls -/

namespace Call

theorem contains_perform (call : Call) (h : scope.contains name) :
    (call.perform scope).contains name := by
  cases call with
  | run source =>
      rw [perform, source.scope_run]
      exact Scope.contains_of_insertAll h
  | program source =>
      rw [perform, Source.runProgram, Program.scope_runLines]
      exact Scope.contains_of_insertAll h

end Call

namespace Reached

theorem lines (h : Reached turns scope) (file : String) (lines : List String) :
    Reached (turns ++ lineTurns file lines scope) (Program.runLines file lines scope).scope := by
  induction lines generalizing turns scope with
  | nil =>
      rw [lineTurns, List.append_nil]
      exact h
  | cons line rest ih =>
      have hfirst := h.turn ⟨file, line⟩
      cases hresult : (Source.run ⟨file, line⟩ scope).result with
      | error d =>
          simp only [lineTurns, Program.runLines, hresult]
          exact hfirst
      | ok value =>
          have hrest := ih hfirst
          rw [List.append_assoc] at hrest
          simp only [lineTurns, Program.runLines, hresult]
          exact hrest

theorem call (h : Reached turns scope) (call : Call) :
    Reached (turns ++ call.turns scope) (call.perform scope) := by
  cases call with
  | run source => exact h.turn source
  | program source => exact h.lines source.name (Program.lines source.text)

theorem calls (h : Reached turns scope) (calls : List Call) :
    Reached (turns ++ turnsFrom scope calls) (calls.foldl Call.perform scope) := by
  induction calls generalizing turns scope with
  | nil =>
      rw [turnsFrom, List.append_nil]
      exact h
  | cons call rest ih =>
      rw [turnsFrom, ← List.append_assoc]
      exact ih (h.call call)

end Reached

theorem contains_foldl (calls : List Call) (h : scope.contains name) :
    (calls.foldl Call.perform scope).contains name := by
  induction calls generalizing scope with
  | nil => exact h
  | cons call rest ih => exact ih (call.contains_perform h)

/--
What holds of a scope after any calls.

Its history is the list of the runs that the calls made.  `null` is bound, and what is
bound stays bound.  Every name that is bound is scanned as an identifier and is no keyword,
integers are in the range of 64 bits, and every binding has its origin in the history.
-/
theorem calls_sound (calls : List Call) :
    Reached (turnsOf calls) (scopeOf calls) ∧ (scopeOf calls).contains "null" ∧
      (∀ more name, (scopeOf calls).contains name -> (scopeOf (calls ++ more)).contains name) ∧
      ∀ name value, (scopeOf calls).find? name = some value ->
        (∀ file, ∃ mark stop,
          Source.scan ⟨file, name⟩ = .ok [⟨.identifier name, mark⟩, ⟨.eof, stop⟩]) ∧
        (∀ k : Keyword, name ≠ k.text) ∧
        (∀ n, value.number = .int n ->
          -9223372036854775808 <= n.toInt ∧ n.toInt <= 9223372036854775807) ∧
        Origin (turnsOf calls) name value := by
  have hreached : Reached (turnsOf calls) (scopeOf calls) := Reached.start.calls calls
  refine ⟨hreached, contains_foldl calls rfl, ?_, ?_⟩
  · intro more name hname
    rw [scopeOf, List.foldl_append]
    exact contains_foldl more hname
  · intro name value hfound
    rw [hreached.find?_eq] at hfound
    have horigin := hreached.origin hfound
    have hidentifier := horigin.isIdentifier
    refine ⟨hidentifier.scan_eq, hidentifier.ne_keyword, ?_, horigin⟩
    intro n hn
    have hle := n.le_toInt
    have hlt := n.toInt_lt
    omega

/-- A line that copies a name, and a program that fails in its second line. -/
def copying : List Call :=
  [.run ⟨"text", "var x=null"⟩, .program ⟨"script", "var y=x\nz\nvar x=y"⟩]

/-- The copy stands in its own line of the program. -/
theorem calls_sound_copying :
    (scopeOf copying).find? "y" =
        some ⟨.int 0, some (.within ⟨"script", "var y=x"⟩ ⟨6, 0, 6⟩ ⟨7, 0, 7⟩)⟩ ∧
      Origin (turnsOf copying) "y"
        ⟨.int 0, some (.within ⟨"script", "var y=x"⟩ ⟨6, 0, 6⟩ ⟨7, 0, 7⟩)⟩ ∧
      (scopeOf (copying ++ [.run ⟨"text", "y/y"⟩])).contains "y" := by
  have hfound : (scopeOf copying).find? "y" =
      some ⟨.int 0, some (.within ⟨"script", "var y=x"⟩ ⟨6, 0, 6⟩ ⟨7, 0, 7⟩)⟩ := by
    cbv
  have hcontains : (scopeOf copying).contains "y" := by
    rw [Scope.contains_eq_isSome, hfound]
    rfl
  obtain ⟨-, -, hstays, hbound⟩ := calls_sound copying
  exact ⟨hfound, (hbound _ _ hfound).2.2.2, hstays _ _ hcontains⟩

end History

end Abacus
