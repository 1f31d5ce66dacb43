import Abacus.Run.Basic

/-!
# What a run comes to

A run that cannot read its source changes nothing; any other run is the evaluation of
the expression that was read.
-/

namespace Abacus

namespace Source

variable {s : Source} {tokens : List Token} {tree : Expr}

theorem read_eq_ok_iff :
    s.read = .ok tree ↔ ∃ tokens, s.scan = .ok tokens ∧ Expr.parse tokens = .ok tree := by
  unfold read
  cases s.scan with
  | error d => exact ⟨nofun, nofun⟩
  | ok tokens =>
      constructor
      · intro h
        exact ⟨tokens, rfl, h⟩
      · rintro ⟨_, hscan, hparse⟩
        cases hscan
        exact hparse

theorem read_eq_error_iff {d : Diagnostic} :
    s.read = .error d ↔
      s.scan = .error d ∨ ∃ tokens, s.scan = .ok tokens ∧ Expr.parse tokens = .error d := by
  unfold read
  cases s.scan with
  | error d' =>
      constructor
      · intro h
        cases h
        exact .inl rfl
      · rintro (h | ⟨_, h, _⟩)
        · cases h
          rfl
        · cases h
  | ok tokens =>
      constructor
      · intro h
        exact .inr ⟨tokens, rfl, h⟩
      · rintro (h | ⟨_, hscan, hparse⟩)
        · cases h
        · cases hscan
          exact hparse

theorem runIn_of_read_error {d : Diagnostic} (h : s.read = .error d) (context : Context)
    (scope : Scope) :
    (s.runIn context scope).result = .error d ∧ (s.runIn context scope).scope = scope := by
  rcases read_eq_error_iff.mp h with hscan | ⟨tokens, hscan, hparse⟩
  · simp only [runIn, hscan, and_self]
  · simp only [runIn, hscan, hparse, and_self]

theorem scope_runIn (hscan : s.scan = .ok tokens) (hparse : Expr.parse tokens = .ok tree)
    (context : Context) (scope : Scope) :
    (s.runIn context scope).scope = (tree.eval scope).scope := by
  simp only [runIn, hscan, hparse]
  cases (tree.eval scope).result with
  | ok value => rfl
  | error f => rfl

/-- The scope that a run leaves does not depend on the context. -/
theorem scope_runIn_eq_run (s : Source) (context : Context) (scope : Scope) :
    (s.runIn context scope).scope = (s.run scope).scope := by
  cases hread : s.read with
  | error d =>
      rw [run, (runIn_of_read_error hread context scope).2,
        (runIn_of_read_error hread program scope).2]
  | ok tree =>
      obtain ⟨tokens, hscan, hparse⟩ := read_eq_ok_iff.mp hread
      rw [run, scope_runIn hscan hparse, scope_runIn hscan hparse]

theorem result_runIn (hscan : s.scan = .ok tokens) (hparse : Expr.parse tokens = .ok tree)
    (context : Context) (scope : Scope) :
    (s.runIn context scope).result =
      (tree.eval scope).result.mapError fun f => f.diagnostic context := by
  simp only [runIn, hscan, hparse]
  cases (tree.eval scope).result with
  | ok value => rfl
  | error f => rfl

theorem runIn_eq_ok_iff {context : Context} {scope : Scope} {value : Value} :
    (s.runIn context scope).result = .ok value ↔
      ∃ tree, s.read = .ok tree ∧ (tree.eval scope).result = .ok value := by
  cases hread : s.read with
  | error d =>
      rw [(runIn_of_read_error hread context scope).1]
      exact ⟨nofun, nofun⟩
  | ok tree =>
      obtain ⟨tokens, hscan, hparse⟩ := read_eq_ok_iff.mp hread
      rw [result_runIn hscan hparse, mapError_eq_ok_iff]
      constructor
      · intro hvalue
        exact ⟨tree, rfl, hvalue⟩
      · rintro ⟨_, htree, hvalue⟩
        cases htree
        exact hvalue

theorem runIn_eq_error_iff {context : Context} {scope : Scope} {d : Diagnostic} :
    (s.runIn context scope).result = .error d ↔ s.read = .error d ∨
      ∃ tree fault, s.read = .ok tree ∧ (tree.eval scope).result = .error fault ∧
        fault.diagnostic context = d := by
  cases hread : s.read with
  | error d' =>
      rw [(runIn_of_read_error hread context scope).1]
      constructor
      · intro h
        cases h
        exact .inl rfl
      · rintro (h | ⟨_, _, h, _⟩)
        · cases h
          rfl
        · cases h
  | ok tree =>
      obtain ⟨tokens, hscan, hparse⟩ := read_eq_ok_iff.mp hread
      rw [result_runIn hscan hparse, mapError_eq_error_iff]
      constructor
      · rintro ⟨fault, hfault, hd⟩
        exact .inr ⟨tree, fault, rfl, hfault, hd⟩
      · rintro (h | ⟨_, fault, htree, hfault, hd⟩)
        · cases h
        · cases htree
          exact ⟨fault, hfault, hd⟩

end Source

end Abacus
