import Abacus.Proofs.Expr.RoundTrip
import Abacus.Proofs.Run.Basic

/-!
# Formatting keeps the meaning

Running a source and running the text of its expression give the same number or fail
with the same message, and leave the same numbers behind.
-/

namespace Abacus

namespace Source

variable {s : Source} {tokens : List Token} {tree : Expr}

/--
A source and the text of its expression have the same meaning, in every scope and under
whatever name the text is run.
-/
theorem run_format (hscan : s.scan = .ok tokens) (hparse : Expr.parse tokens = .ok tree)
    (file : String) (scope : Scope) :
    (Source.run ⟨file, tree.format⟩ scope).scope.SameNumbers (s.run scope).scope ∧
      ((∃ v w, (Source.run ⟨file, tree.format⟩ scope).result = .ok v ∧
          (s.run scope).result = .ok w ∧ v.number = w.number) ∨
        ∃ d d', (Source.run ⟨file, tree.format⟩ scope).result = .error d ∧
          (s.run scope).result = .error d' ∧ d.kind = .runtime ∧ d'.kind = .runtime ∧
          d.message = d'.message) := by
  obtain ⟨tokens', copy, hscan', hparse', hcopies⟩ :=
    Expr.exists_copy file (Expr.writable_of_parse hscan hparse)
  obtain ⟨hresult, hscope⟩ := hcopies.shape.sameOutcome (.refl scope)
  simp only [run]
  rw [scope_runIn hscan hparse, scope_runIn hscan' hparse', result_runIn hscan hparse,
    result_runIn hscan' hparse']
  refine ⟨hscope, ?_⟩
  rcases hresult with ⟨v, w, hv, hw, hnumber⟩ | ⟨f, g, hf, hg, hcause⟩
  · rw [hv, hw]
    exact .inl ⟨v, w, rfl, rfl, hnumber⟩
  · rw [hf, hg]
    refine .inr ⟨_, _, rfl, rfl, rfl, rfl, ?_⟩
    exact congrArg Eval.Cause.message hcause

/-- A stretch of the text `null/ -null`. -/
def quotient (start stop : Nat) : Span :=
  .within ⟨"text", "null/ -null"⟩ ⟨start, 0, start⟩ ⟨stop, 0, stop⟩

/-- The quotient of zero and minus zero, written without and with parentheses. -/
theorem run_format_null_quotient :
    (Source.run ⟨"copy", "(null / (-null))"⟩ (.ofTable .globals)).scope.SameNumbers
        (Source.run ⟨"text", "null/ -null"⟩ (.ofTable .globals)).scope ∧
      ((∃ v w, (Source.run ⟨"copy", "(null / (-null))"⟩ (.ofTable .globals)).result = .ok v ∧
          (Source.run ⟨"text", "null/ -null"⟩ (.ofTable .globals)).result = .ok w ∧
          v.number = w.number) ∨
        ∃ d d', (Source.run ⟨"copy", "(null / (-null))"⟩ (.ofTable .globals)).result = .error d ∧
          (Source.run ⟨"text", "null/ -null"⟩ (.ofTable .globals)).result = .error d' ∧
          d.kind = .runtime ∧ d'.kind = .runtime ∧ d.message = d'.message) := by
  have hscan : Source.scan ⟨"text", "null/ -null"⟩ = .ok
      [⟨.identifier "null", quotient 0 4⟩, ⟨.operator .div, quotient 4 5⟩,
        ⟨.operator .sub, quotient 6 7⟩, ⟨.identifier "null", quotient 7 11⟩,
        ⟨.eof, quotient 11 11⟩] := by
    cbv
  have hparse : Expr.parse
      [⟨.identifier "null", quotient 0 4⟩, ⟨.operator .div, quotient 4 5⟩,
        ⟨.operator .sub, quotient 6 7⟩, ⟨.identifier "null", quotient 7 11⟩,
        ⟨.eof, quotient 11 11⟩] =
      .ok (.binary .div (quotient 4 5) (.access "null" (quotient 0 4))
        (.unary .minus (quotient 6 7) (.access "null" (quotient 7 11)))) := by
    cbv
  exact run_format hscan hparse "copy" (.ofTable .globals)

end Source

end Abacus
