import Abacus.Eval.Basic

/-!
# The shape of an expression

Two expressions have the same shape if they differ in their marks alone.  Evaluation
computes the same numbers for both, fails for the same cause, and binds the same names
to the same numbers.
-/

namespace Abacus

namespace Expr

/-- The same constructors, operators, names and numbers at every place; marks may differ. -/
inductive SameShape : Expr -> Expr -> Prop where
  | literal {value : Number} {mark mark' : Span} :
      SameShape (.literal value mark) (.literal value mark')
  | access {name : String} {mark mark' : Span} :
      SameShape (.access name mark) (.access name mark')
  | assign {name : String} {mark mark' : Span} {value value' : Expr}
      (h : SameShape value value') :
      SameShape (.assign name mark value) (.assign name mark' value')
  | unary {sign : Sign} {mark mark' : Span} {operand operand' : Expr}
      (h : SameShape operand operand') :
      SameShape (.unary sign mark operand) (.unary sign mark' operand')
  | binary {op : Operator} {mark mark' : Span} {left left' right right' : Expr}
      (hleft : SameShape left left') (hright : SameShape right right') :
      SameShape (.binary op mark left right) (.binary op mark' left' right')

end Expr

/-! ## Scopes with the same numbers -/

namespace Scope

/-- The same names bound to the same numbers; spans may differ. -/
structure SameNumbers (s t : Scope) : Prop where
  outer_eq : s.outer = t.outer
  find?_eq : ∀ name, (s.table.find? name).map Value.number = (t.table.find? name).map Value.number

namespace SameNumbers

variable {s t : Scope}

theorem refl (s : Scope) : SameNumbers s s :=
  ⟨rfl, fun _ => rfl⟩

theorem insert (h : SameNumbers s t) (name : String) {v w : Value} (hvalue : v.number = w.number) :
    SameNumbers (s.insert name v) (t.insert name w) where
  outer_eq := h.outer_eq
  find?_eq other := by
    simp only [Scope.insert, Table.find?_insert]
    split
    · rw [Option.map_some, Option.map_some, hvalue]
    · exact h.find?_eq other

theorem scope_find?_eq (h : SameNumbers s t) (name : String) :
    (s.find? name).map Value.number = (t.find? name).map Value.number := by
  have htable := h.find?_eq name
  simp only [Scope.find?, Scope.tables, List.findSome?_cons, h.outer_eq]
  cases hs : s.table.find? name with
  | none =>
      rw [hs] at htable
      rw [Option.map_eq_none_iff.mp htable.symm]
  | some v =>
      rw [hs] at htable
      obtain ⟨w, hw, hnumber⟩ := Option.map_eq_some_iff.mp htable.symm
      rw [hw, Option.map_some, Option.map_some, hnumber]

end SameNumbers

end Scope

namespace Eval

structure SameOutcome (o u : Outcome) : Prop where
  result :
    (∃ v w, o.result = .ok v ∧ u.result = .ok w ∧ v.number = w.number) ∨
      ∃ f g, o.result = .error f ∧ u.result = .error g ∧ f.cause = g.cause
  scope : o.scope.SameNumbers u.scope

end Eval

namespace Expr

open Eval

/-! ## Evaluation does not see marks -/

theorem sameOutcome_access (name : String) (mark mark' : Span) {s t : Scope}
    (hst : s.SameNumbers t) :
    SameOutcome ((access name mark).eval s) ((access name mark').eval t) := by
  have hfind := hst.scope_find?_eq name
  cases hs : s.find? name with
  | none =>
      rw [hs] at hfind
      have ht := Option.map_eq_none_iff.mp hfind.symm
      simp only [eval, hs, ht]
      exact ⟨.inr ⟨_, _, rfl, rfl, rfl⟩, hst⟩
  | some v =>
      rw [hs] at hfind
      obtain ⟨w, ht, hnumber⟩ := Option.map_eq_some_iff.mp hfind.symm
      simp only [eval, hs, ht]
      exact ⟨.inl ⟨_, _, rfl, rfl, hnumber.symm⟩, hst⟩

/-- Expressions of the same shape have the same numbers. -/
theorem SameShape.sameOutcome {e e' : Expr} (h : SameShape e e') {s t : Scope}
    (hst : s.SameNumbers t) : SameOutcome (e.eval s) (e'.eval t) := by
  induction h generalizing s t with
  | literal => exact ⟨.inl ⟨_, _, rfl, rfl, rfl⟩, hst⟩
  | access => exact sameOutcome_access _ _ _ hst
  | @assign name mark mark' value value' h ih =>
      obtain ⟨⟨v, w, hv, hw, hnumber⟩ | ⟨f, g, hf, hg, hcause⟩, hscope⟩ := ih hst
      · simp only [eval, hv, hw]
        exact ⟨.inl ⟨_, _, rfl, rfl, hnumber⟩, hscope.insert name hnumber⟩
      · simp only [eval, hf, hg]
        exact ⟨.inr ⟨_, _, rfl, rfl, hcause⟩, hscope⟩
  | @unary sign mark mark' operand operand' h ih =>
      obtain ⟨⟨v, w, hv, hw, hnumber⟩ | ⟨f, g, hf, hg, hcause⟩, hscope⟩ := ih hst
      · simp only [eval, hv, hw, hnumber]
        exact ⟨.inl ⟨_, _, rfl, rfl, rfl⟩, hscope⟩
      · simp only [eval, hf, hg]
        exact ⟨.inr ⟨_, _, rfl, rfl, hcause⟩, hscope⟩
  | @binary op mark mark' left left' right right' hleft hright ihleft ihright =>
      obtain ⟨⟨a, a', ha, ha', hanumber⟩ | ⟨f, g, hf, hg, hcause⟩, hscope⟩ := ihleft hst
      · obtain ⟨⟨b, b', hb, hb', hbnumber⟩ | ⟨f, g, hf, hg, hcause⟩, hscope⟩ := ihright hscope
        · simp only [eval, ha, ha', hb, hb', hanumber, hbnumber]
          cases op.value? a'.number b'.number with
          | none => exact ⟨.inr ⟨_, _, rfl, rfl, rfl⟩, hscope⟩
          | some n => exact ⟨.inl ⟨_, _, rfl, rfl, rfl⟩, hscope⟩
        · simp only [eval, ha, ha', hf, hg]
          exact ⟨.inr ⟨_, _, rfl, rfl, hcause⟩, hscope⟩
      · simp only [eval, hf, hg]
        exact ⟨.inr ⟨_, _, rfl, rfl, hcause⟩, hscope⟩

end Expr

end Abacus
