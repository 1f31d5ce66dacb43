import Mathlib
import Abacus.Proofs.Text.Lines
import Abacus.Run.Program

/-!
# Programs one after the other

Running two programs with a newline between them is running the first and then, if it did
not fail, the second from the scope that the first one leaves.
-/

namespace Abacus

namespace Program

/-! ## Runs in a row -/

/-- A run, followed by another one from the scope it leaves unless it failed. -/
def Run.andThen (first : Run) (next : Scope -> Run) : Run :=
  match first.failure with
  | some _ => first
  | none =>
      let second := next first.scope
      ⟨first.values ++ second.values, second.failure, second.scope,
        first.events ++ second.events⟩

section

variable {r : Run} {next : Scope -> Run} {d : Diagnostic} {value : Option Value}

theorem Run.last_eq_error_iff : r.last = .error d ↔ r.failure = some d := by
  unfold Run.last
  cases r.failure with
  | some d => simp
  | none => exact ⟨nofun, nofun⟩

theorem Run.last_eq_ok_iff :
    r.last = .ok value ↔ r.failure = none ∧ r.values.getLast?.map Prod.snd = value := by
  unfold Run.last
  cases r.failure with
  | some d => exact ⟨nofun, nofun⟩
  | none => simp

theorem Run.andThen_of_failure (h : r.failure = some d) : r.andThen next = r := by
  rw [andThen, h]

theorem Run.andThen_of_success (h : r.failure = none) :
    r.andThen next =
      ⟨r.values ++ (next r.scope).values, (next r.scope).failure, (next r.scope).scope,
        r.events ++ (next r.scope).events⟩ := by
  rw [andThen, h]

theorem Run.last_andThen (h : r.last = .ok value) :
    (r.andThen next).last = (next r.scope).last.map (·.or value) := by
  obtain ⟨hfailure, rfl⟩ := last_eq_ok_iff.mp h
  rw [andThen_of_success hfailure, last, last]
  cases (next r.scope).failure with
  | some d => rfl
  | none =>
      simp only [Except.map, List.getLast?_append, Option.map_or]

end

/-- Lines run alike at once and in two parts. -/
theorem runLines_append (file : String) (as bs : List String) (scope : Scope) :
    runLines file (as ++ bs) scope = (runLines file as scope).andThen (runLines file bs) := by
  induction as generalizing scope with
  | nil => rfl
  | cons line as ih =>
      cases hresult : (Source.run ⟨file, line⟩ scope).result with
      | error d => simp only [List.cons_append, runLines, hresult, Run.andThen]
      | ok value =>
          simp only [List.cons_append, runLines, hresult, ih]
          cases hfailure : (runLines file as (Source.run ⟨file, line⟩ scope).scope).failure with
          | some d => simp only [Run.andThen, hfailure]
          | none => simp only [Run.andThen, hfailure, List.cons_append, List.append_assoc]

theorem last_runLines_eq_none_iff (file : String) (lines : List String) (scope : Scope) :
    (runLines file lines scope).last = .ok none ↔ lines = [] := by
  cases lines with
  | nil => exact ⟨fun _ => rfl, fun _ => rfl⟩
  | cons line lines =>
      cases hresult : (Source.run ⟨file, line⟩ scope).result with
      | error d => simp [Run.last, runLines, hresult]
      | ok value => simp [Run.last_eq_ok_iff, runLines, hresult]

/-! ## Texts in a row -/

theorem lines_eq_nil_iff {text : String} :
    lines text = [] ↔ ∀ line ∈ Text.lines text.toList, Text.isBlank line := by
  simp [lines]

/-- The lines of two texts with a newline between them, less the blank ones. -/
theorem lines_append {a : String} (h : a.toList.getLast? ≠ some '\r') (b : String) :
    lines (a ++ "\n" ++ b) = lines a ++ lines b := by
  have htext : (a ++ "\n" ++ b).toList = a.toList ++ '\n' :: b.toList := by
    simp
  have hgap : (Text.gap a.toList).filter (fun line => !Text.isBlank line) = [] := by
    simpa using fun line => Text.isBlank_of_mem_gap
  simp only [lines, htext, Text.lines_append h, List.filter_append, hgap, List.nil_append,
    List.map_append]

end Program

namespace Source

/--
A program in two parts with a newline between them runs as its parts do.

If the first part fails, so does the whole, with the same diagnostic, the same values before
it and the same scope.  Otherwise the values of the second part follow, the scope is the one
that the second part leaves when it starts from that of the first, and the result is that of
the second part, or of the first if the second has blank lines only.
-/
theorem runProgram_append (file a b : String) (scope : Scope)
    (h : a.toList.getLast? ≠ some '\r') :
    let first := runProgram ⟨file, a⟩ scope
    let second := runProgram ⟨file, b⟩ first.scope
    let whole := runProgram ⟨file, a ++ "\n" ++ b⟩ scope
    (∀ d, first.last = .error d ->
      whole.last = .error d ∧ whole.values = first.values ∧ whole.scope = first.scope ∧
        whole.events = first.events) ∧
    ∀ value, first.last = .ok value ->
      whole.values = first.values ++ second.values ∧ whole.scope = second.scope ∧
        whole.events = first.events ++ second.events ∧
        (∀ d, second.last = .error d -> whole.last = .error d) ∧
        (∀ v, second.last = .ok (some v) -> whole.last = .ok (some v)) ∧
        (second.last = .ok none -> whole.last = .ok value) ∧
        (second.last = .ok none ↔ ∀ line ∈ Text.lines b.toList, Text.isBlank line) := by
  intro first second whole
  have hwhole : whole = first.andThen (runProgram ⟨file, b⟩) := by
    simp only [whole, first, runProgram, Program.lines_append h, Program.runLines_append]
    rfl
  constructor
  · intro d hd
    rw [hwhole, Program.Run.andThen_of_failure (Program.Run.last_eq_error_iff.mp hd)]
    exact ⟨hd, rfl, rfl, rfl⟩
  · intro value hvalue
    have hlast : whole.last = second.last.map (·.or value) := by
      rw [hwhole]
      exact Program.Run.last_andThen hvalue
    rw [hlast, hwhole, Program.Run.andThen_of_success (Program.Run.last_eq_ok_iff.mp hvalue).1]
    refine ⟨rfl, rfl, rfl, ?_, ?_, ?_, ?_⟩
    · intro d hd
      rw [hd]
      rfl
    · intro v hv
      rw [hv]
      rfl
    · intro hnone
      rw [hnone]
      rfl
    · rw [← Program.lines_eq_nil_iff]
      exact Program.last_runLines_eq_none_iff file (Program.lines b) first.scope

def opening : Program.Run :=
  runProgram ⟨"script", "var x=null\r\n"⟩ (.ofTable .globals)

/-- The run of a text that reads a name of the text before it, and then fails. -/
def sequel : Program.Run :=
  runProgram ⟨"script", " \nvar y=x\nz"⟩ opening.scope

theorem runProgram_append_halfway :
    let whole := runProgram ⟨"script", "var x=null\r\n" ++ "\n" ++ " \nvar y=x\nz"⟩
      (.ofTable .globals)
    whole.values = opening.values ++ sequel.values ∧
      whole.values.map Prod.fst = ["var x=null", "var y=x"] ∧
      whole.scope = sequel.scope ∧ whole.scope.contains "y" = true ∧
      ∃ d, d.message = "'z' is not defined" ∧ sequel.last = .error d ∧ whole.last = .error d := by
  have hopening : opening.failure = none := by cbv
  have hnames : (opening.values ++ sequel.values).map Prod.fst = ["var x=null", "var y=x"] := by
    cbv
  have hy : sequel.scope.contains "y" = true := by cbv
  have hmessage : sequel.failure.map (·.message) = some "'z' is not defined" := by cbv
  obtain ⟨d, hd, hmessage⟩ := Option.map_eq_some_iff.mp hmessage
  have hsequel : sequel.last = .error d := Program.Run.last_eq_error_iff.mpr hd
  obtain ⟨hvalues, hscope, -, hfailure, -⟩ :=
    (runProgram_append "script" "var x=null\r\n" " \nvar y=x\nz" (.ofTable .globals)
      (by decide)).2 _ (Program.Run.last_eq_ok_iff.mpr ⟨hopening, rfl⟩)
  intro whole
  rw [hvalues, hscope]
  exact ⟨rfl, hnames, rfl, hy, d, hmessage, hsequel, hfailure d hsequel⟩

end Source

end Abacus
