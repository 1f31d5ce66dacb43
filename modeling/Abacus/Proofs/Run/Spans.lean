import Abacus.Proofs.Expr.Spans
import Abacus.Proofs.Run.Basic

/-!
# Where the results of a run stand

Every value that a run computes is stamped with a stretch of the text just run, whatever
the scope holds, and every diagnostic points into that text.
-/

namespace Abacus

open Eval

/-! ## Values are stamped by the nodes that compute them -/

namespace Eval

def Stamped (P : Span -> Prop) (values : List Value) : Prop :=
  ∀ v ∈ values, ∃ span, v.span = some span ∧ P span

variable {P : Span -> Prop} {st next last : State} {node : Expr} {nodes : List Expr}

theorem Stamped.push {values : List Value} {n : Number} {span : Span} (hspan : P span)
    (h : Stamped P values) : Stamped P (⟨n, some span⟩ :: values) := by
  intro v hv
  rcases List.mem_cons.mp hv with rfl | hv
  · exact ⟨span, rfl, hspan⟩
  · exact h v hv

theorem Stamped.tail {values : List Value} {v : Value} (h : Stamped P (v :: values)) :
    Stamped P values :=
  fun u hu => h u (List.mem_cons_of_mem v hu)

/-- A node leaves its own span on its value; an assignment leaves the value as it is. -/
theorem Step.stamped (h : Step st node next) (hnode : P node.span)
    (hvalues : Stamped P st.values) : Stamped P next.values := by
  cases h with
  | literal => exact hvalues.push hnode
  | access => exact hvalues.push hnode
  | assign => exact hvalues
  | unary => exact hvalues.tail.push hnode
  | binary => exact hvalues.tail.tail.push hnode

theorem Steps.stamped (h : Steps st nodes last) (hnodes : ∀ node ∈ nodes, P node.span)
    (hvalues : Stamped P st.values) : Stamped P last.values := by
  induction h with
  | nil => exact hvalues
  | cons first rest ih =>
      rw [List.forall_mem_cons] at hnodes
      exact ih hnodes.2 (first.stamped hnodes.1 hvalues)

end Eval

namespace Diagnostic

/-- What a diagnostic says of the stretch of a source that it is about. -/
structure PointsInto (s : Source) (d : Diagnostic) : Prop where
  placed : d.span.Placed s
  /-- Only a syntax error at the end of the text has nothing to cover. -/
  empty : d.span.start.offset = d.span.stop.offset ->
    d.kind = .invalidSyntax ∧ d.span.start.offset = s.text.length
  /-- An illegal character is covered and quoted. -/
  illegal : d.kind = .illegalCharacter ->
    ∃ c : Char, d.span.text = c.toString ∧ d.message = "'" ++ c.toString ++ "'"
  /-- The name of an undefined variable is covered and quoted. -/
  undefined : d.kind = .runtime ->
    d.message = "Division by Zero" ∨ d.message = "'" ++ d.span.text ++ "' is not defined"

end Diagnostic

namespace Source

variable {s : Source} {d : Diagnostic} {tokens : List Token} {tree : Expr}

theorem pointsInto_of_scan (h : s.scan = .error d) : d.PointsInto s := by
  obtain ⟨e, he, rfl⟩ := mapError_eq_error_iff.mp h
  have hproper := Scan.proper_of_error he s.at_zero
  obtain ⟨cause, span⟩ := e
  exact {
    placed := hproper.toPlaced
    empty := fun hempty => absurd hempty (Nat.ne_of_lt hproper.start_lt)
    illegal := by
      intro hkind
      cases cause with
      | illegal c => exact ⟨c, Scan.text_of_illegal he s.at_zero rfl, rfl⟩
      | equalsAfter c => cases hkind
    undefined := by
      intro hkind
      cases cause <;> cases hkind }

theorem pointsInto_of_parse (hscan : s.scan = .ok tokens) (h : Expr.parse tokens = .error d) :
    d.PointsInto s := by
  obtain ⟨e, he, rfl⟩ := mapError_eq_error_iff.mp h
  obtain ⟨us, q, rfl, hq, hus⟩ := (scan_eq_ok_iff.mp hscan).located s.at_zero
  obtain ⟨before, t, after, place, depth, htokens, -, -, rfl⟩ :=
    Parse.ofTokens_error (Expr.ended_concat us _) he
  have ht : t ∈ us ++ [⟨.eof, .point s q⟩] := by simp [htokens]
  exact {
    placed := placed_of_located hus hq t ht
    empty := by
      intro hempty
      refine ⟨rfl, ?_⟩
      rcases List.mem_append.mp ht with ht | ht
      · exact absurd hempty (Nat.ne_of_lt (hus t ht).proper.start_lt)
      · rw [List.mem_singleton.mp ht]
        exact hq.offset_add
    illegal := nofun
    undefined := nofun }

theorem pointsInto_of_read (h : s.read = .error d) : d.PointsInto s := by
  rcases read_eq_error_iff.mp h with hscan | ⟨tokens, hscan, hparse⟩
  · exact pointsInto_of_scan hscan
  · exact pointsInto_of_parse hscan hparse

theorem proper_of_read (h : s.read = .ok tree) {node : Expr} (hnode : node ∈ tree.postorder) :
    node.span.Proper s ∧ node.mark.Proper s := by
  obtain ⟨tokens, hscan, hparse⟩ := read_eq_ok_iff.mp h
  obtain ⟨hspan, hmark, -⟩ := Expr.spans_of_parse hscan hparse hnode
  exact ⟨hspan, hmark⟩

/-- The span of a fault is that of a node, and the name that is not defined stands there. -/
theorem fault_span (h : s.read = .ok tree) {st : State} {node : Expr} {fault : Fault}
    (hnode : node ∈ tree.postorder) (hhalts : Halts st node fault) :
    fault.span.Proper s ∧ (fault.cause = .divisionByZero ∨
      fault.cause = .undefined fault.span.text) := by
  cases hhalts with
  | undefined mark =>
      obtain ⟨tokens, hscan, hparse⟩ := read_eq_ok_iff.mp h
      obtain ⟨hproper, -, htext⟩ := Expr.spans_of_parse hscan hparse hnode
      refine ⟨hproper, .inr ?_⟩
      rw [← htext _ rfl]
      rfl
  | divisionByZero mark left right =>
      have hright : right ∈ (Expr.binary .div mark left right).postorder := by
        simp [Expr.postorder, right.mem_postorder_self]
      have hmem := Expr.mem_postorder_trans hnode hright
      exact ⟨(proper_of_read h hmem).1, .inl rfl⟩

theorem pointsInto_of_fault {fault : Fault} (hproper : fault.span.Proper s)
    (hcause : fault.cause = .divisionByZero ∨ fault.cause = .undefined fault.span.text)
    (context : Context) : (fault.diagnostic context).PointsInto s where
  placed := hproper.toPlaced
  empty hempty := absurd hempty (Nat.ne_of_lt hproper.start_lt)
  illegal := nofun
  undefined _ := by
    refine hcause.imp ?_ ?_
    · intro hcause
      exact congrArg Cause.message hcause
    · intro hcause
      exact congrArg Cause.message hcause

/-! ## Runs -/

variable {context : Context} {scope : Scope}

theorem proper_of_runIn {value : Value} (h : (s.runIn context scope).result = .ok value) :
    ∃ span, value.span = some span ∧ span.Proper s := by
  obtain ⟨tree, hread, hvalue⟩ := runIn_eq_ok_iff.mp h
  have hsteps := (does_eval tree (.start scope)).steps hvalue
  have hstamped := hsteps.stamped (fun node hnode => (proper_of_read hread hnode).1) nofun
  exact hstamped value (List.mem_cons_self ..)

theorem pointsInto_of_runIn (h : (s.runIn context scope).result = .error d) :
    d.PointsInto s := by
  rcases runIn_eq_error_iff.mp h with hread | ⟨tree, fault, hread, hfault, rfl⟩
  · exact pointsInto_of_read hread
  · obtain ⟨values, before, node, after, hnodes, -, hhalts⟩ :=
      (does_eval tree (.start scope)).fails hfault
    have hnode : node ∈ tree.postorder := by simp [hnodes]
    obtain ⟨hproper, hcause⟩ := fault_span hread hnode hhalts
    exact pointsInto_of_fault hproper hcause context

/--
Whatever a run gives back stands in the text just run: a value has a span there that
covers something, and a diagnostic points there.  Both ends of such a span are in the
text, since all the tokens that the expression is made from are.
-/
theorem run_spans (s : Source) (scope : Scope) :
    (∀ value, (s.run scope).result = .ok value ->
      ∃ span, value.span = some span ∧ span.Proper s) ∧
      (∀ d, (s.run scope).result = .error d -> d.PointsInto s) ∧
      ∀ tree, s.read = .ok tree -> ∀ node ∈ tree.postorder,
        node.span.Proper s ∧ node.mark.Proper s := by
  refine ⟨?_, ?_, ?_⟩
  · intro value hvalue
    exact proper_of_runIn hvalue
  · intro d hd
    exact pointsInto_of_runIn hd
  · intro tree hread node hnode
    exact proper_of_read hread hnode

/-- A scope in which `x` has a value from elsewhere, with positions that fit no text. -/
def stale : Scope :=
  .ofTable (Table.empty.insert "x"
    ⟨.int 7, some ⟨⟨"other", ""⟩, ⟨9, 3, 0⟩, ⟨4, 0, 0⟩, ⟨"another", ""⟩⟩⟩)

/-- A value is stamped anew, and the name that is not defined is covered. -/
theorem run_spans_stale :
    (∃ span, (run ⟨"text", " (x)"⟩ stale).result = .ok ⟨.int 7, some span⟩ ∧
      span.Proper ⟨"text", " (x)"⟩ ∧ span.text = "x") ∧
    ∃ d, (run ⟨"text", "x*y"⟩ stale).result = .error d ∧ d.PointsInto ⟨"text", "x*y"⟩ ∧
      d.message = "'y' is not defined" := by
  have hvalue : (run ⟨"text", " (x)"⟩ stale).result =
      .ok ⟨.int 7, some (.within ⟨"text", " (x)"⟩ ⟨2, 0, 2⟩ ⟨3, 0, 3⟩)⟩ := by
    cbv
  have herror : (run ⟨"text", "x*y"⟩ stale).result =
      .error ⟨.runtime, "'y' is not defined", .within ⟨"text", "x*y"⟩ ⟨2, 0, 2⟩ ⟨3, 0, 3⟩,
        [⟨"<program>", ⟨⟨"text", "x*y"⟩, ⟨2, 0, 2⟩⟩⟩]⟩ := by
    cbv
  obtain ⟨span, hspan, hproper⟩ := (run_spans _ _).1 _ hvalue
  cases hspan
  exact ⟨⟨_, hvalue, hproper, by cbv⟩, _, herror, (run_spans _ _).2.1 _ herror, rfl⟩

end Source

end Abacus
