import Abacus.Proofs.Expr.RoundTrip
import Abacus.Proofs.Parse.Kinds
import Abacus.Proofs.Scan.Concat

/-!
# Assigning what a source computes

Any text can be put behind `var name =`, whether it can be run or not.  It is scanned,
parsed and evaluated there as it is alone, and a value that it has is bound to the name.
-/

namespace Abacus

open Scan

namespace Source

def assigning (name : String) (s : Source) : Source :=
  ⟨s.name, "var " ++ name ++ " = " ++ s.text⟩

variable {name : String}

/-! ## Reading -/

theorem exists_tokens_var (hname : IsIdentifier name) (file : String) :
    ∃ s mark s' stop, Source.tokens ⟨file, "var " ++ name ++ " ="⟩ =
      .ok [⟨.keyword .var, s⟩, ⟨.identifier name, mark⟩, ⟨.assign, s'⟩, ⟨.eof, stop⟩] := by
  have hblank (rest : List Char) : Apart isWordChar (' ' :: rest) :=
    (Expr.closes_blank rest).apart rfl rfl
  have hscans : Scans ⟨file, "var " ++ name ++ " ="⟩ .zero
      (['v', 'a', 'r'] ++ ' ' :: (name.toList ++ ' ' :: (['='] ++ []))) _ :=
    .token Expr.lexeme_var (hblank _) <| .blank rfl <|
      .token (Expr.lexeme_identifier hname) (hblank _) <| .blank rfl <|
        .token (.symbol (c := '=') rfl rfl) (apart_nil _) (.done _)
  have htext : ("var " ++ name ++ " =").toList =
      ['v', 'a', 'r'] ++ ' ' :: (name.toList ++ ' ' :: (['='] ++ [])) := by
    simp
  rw [← htext] at hscans
  exact ⟨_, _, _, _, hscans.tokens_eq⟩

theorem sameKinds_of_moved {n : Nat} {ts us : List Token}
    (h : List.Forall₂ (Token.Moved n) ts us) : Parse.SameKinds ts us := by
  induction h with
  | nil => rfl
  | cons h hrest ih => exact congrArg₂ List.cons h.kind_eq ih

/-- The value of an assignment is read as it is alone. -/
theorem exists_read_assigning (s : Source) (hname : IsIdentifier name) :
    ∃ mark result, (s.assigning name).read = result.map (.assign name mark) ∧
      Parse.SameReading s.read result := by
  obtain ⟨v, mark, q, stop, hvar⟩ := exists_tokens_var hname s.name
  have htext : (s.assigning name).text.toList =
      ("var " ++ name ++ " =").toList ++ ' ' :: s.text.toList := by
    simp [assigning]
  obtain ⟨result, hmoved, hall⟩ := tokens_of_blank hvar (w := ' ') rfl htext
  simp only [read, scan, hall]
  cases hown : s.tokens with
  | error e =>
      rw [hown] at hmoved
      cases hmoved with
      | error hspan => exact ⟨mark, .error _, rfl, .error rfl rfl⟩
  | ok ts =>
      obtain ⟨us, stop, rfl, -, hus⟩ := (scans_of_tokens hown).located s.at_zero
      rw [hown] at hmoved
      cases hmoved with
      | @ok _ moved hmoved =>
          have hkinds := sameKinds_of_moved hmoved
          have hended : Expr.Ended moved := hkinds.ended (Expr.ended_concat us _)
          exact ⟨_, _, Parse.parse_assign _ _ name hended,
            hkinds.sameReading fun t ht => (hus t ht).lexical.kind_ne_eof⟩

theorem exists_read_identifier (hname : IsIdentifier name) (file : String) :
    ∃ mark, Source.read ⟨file, name⟩ = .ok (.access name mark) := by
  have hscans := (Expr.lexeme_identifier hname).scans ⟨file, name⟩ .zero
  exact ⟨_, read_of_scans hscans (Expr.derives_of_atom .expression .access)⟩

/-! ## Running -/

theorem run_identifier (hname : IsIdentifier name) (file : String) {scope : Scope} {value : Value}
    (h : scope.find? name = some value) :
    ∃ found, (Source.run ⟨file, name⟩ scope).result = .ok found ∧ found.number = value.number := by
  obtain ⟨mark, hread⟩ := exists_read_identifier hname file
  have heval : ((Expr.access name mark).eval scope).result = .ok ⟨value.number, some mark⟩ := by
    simp only [Expr.eval, h]
  exact ⟨_, runIn_eq_ok_iff.mpr ⟨_, hread, heval⟩, rfl⟩

/--
Running an assignment of any text, in any scope, is running the text and then binding the name.
Both succeed or both fail.  If they succeed, it is with the same number, which the name has
afterwards.  If they fail, it is with the same message, and the assignment has no effect of
its own.
-/
theorem run_assigning (s : Source) (hname : IsIdentifier name) (scope : Scope) :
    (∃ value assigned, (s.run scope).result = .ok value ∧
      ((s.assigning name).run scope).result = .ok assigned ∧ assigned.number = value.number ∧
      ((s.assigning name).run scope).scope.SameNumbers ((s.run scope).scope.insert name value) ∧
      ∃ found, (Source.run ⟨s.name, name⟩ ((s.assigning name).run scope).scope).result =
        .ok found ∧ found.number = value.number) ∨
    ∃ d d', (s.run scope).result = .error d ∧ ((s.assigning name).run scope).result = .error d' ∧
      d'.kind = d.kind ∧ d'.message = d.message ∧
      ((s.assigning name).run scope).scope.SameNumbers (s.run scope).scope := by
  obtain ⟨mark, result, hassigning, hsame⟩ := s.exists_read_assigning hname
  generalize hread : s.read = own at hsame
  cases hsame with
  | @error d d' hkind hmessage =>
      obtain ⟨hresult, hscope⟩ := runIn_of_read_error hread program scope
      obtain ⟨hresult', hscope'⟩ := runIn_of_read_error hassigning program scope
      refine .inr ⟨d, d', hresult, hresult', hkind, hmessage, ?_⟩
      rw [run, run, hscope, hscope']
      exact .refl scope
  | @ok tree copy hshape =>
      obtain ⟨tokens, hscan, hparse⟩ := read_eq_ok_iff.mp hread
      obtain ⟨tokens', hscan', hparse'⟩ := read_eq_ok_iff.mp hassigning
      obtain ⟨houtcome, hnumbers⟩ := hshape.sameOutcome (.refl scope)
      simp only [run, scope_runIn hscan hparse, scope_runIn hscan' hparse',
        result_runIn hscan hparse, result_runIn hscan' hparse', Expr.eval]
      rcases houtcome with ⟨w, v, hw, hv, hnumber⟩ | ⟨g, f, hg, hf, hcause⟩
      · simp only [hw, hv]
        have hfind : ((copy.eval scope).scope.insert name w).find? name = some w := by
          rw [Scope.find?_insert, if_pos rfl]
        obtain ⟨found, hfound, hsame⟩ := run_identifier hname s.name hfind
        exact .inl ⟨v, w, rfl, rfl, hnumber, hnumbers.insert name hnumber, found, hfound,
          hsame.trans hnumber⟩
      · simp only [hg, hf]
        exact .inr ⟨_, _, rfl, rfl, rfl, congrArg Eval.Cause.message hcause, hnumbers⟩

/-- A text that binds the name to zero and then divides by it. -/
def halfway : Source :=
  ⟨"text", "(var x = null) / x"⟩

def nested : Source :=
  ⟨"text", "var y = null"⟩

/-- A failing text leaves the name with the number from before the failure, and a text that
has a value leaves it with this value. -/
theorem run_assigning_halfway_nested :
    IsIdentifier "x" ∧
    (∃ d d', (halfway.run (.ofTable .globals)).result = .error d ∧
      ((halfway.assigning "x").run (.ofTable .globals)).result = .error d' ∧
      d'.kind = d.kind ∧ d'.message = d.message ∧
      ((halfway.assigning "x").run (.ofTable .globals)).scope.SameNumbers
        (halfway.run (.ofTable .globals)).scope) ∧
    ∃ value assigned, (nested.run (.ofTable .globals)).result = .ok value ∧
      ((nested.assigning "x").run (.ofTable .globals)).result = .ok assigned ∧
      assigned.number = value.number ∧
      ((nested.assigning "x").run (.ofTable .globals)).scope.SameNumbers
        ((nested.run (.ofTable .globals)).scope.insert "x" value) ∧
      ∃ found, (Source.run ⟨"text", "x"⟩
          ((nested.assigning "x").run (.ofTable .globals)).scope).result = .ok found ∧
        found.number = value.number := by
  have hname : IsIdentifier "x" := ⟨.mk rfl (List.all_eq_true.mp rfl), rfl⟩
  have hfails : (halfway.run (.ofTable .globals)).result.isOk = false := by cbv
  have hsucceeds : (nested.run (.ofTable .globals)).result.isOk = true := by cbv
  refine ⟨hname, ?_, ?_⟩
  · rcases run_assigning halfway hname (.ofTable .globals) with ⟨value, _, hvalue, -⟩ | h
    · rw [hvalue] at hfails
      cases hfails
    · exact h
  · rcases run_assigning nested hname (.ofTable .globals) with h | ⟨d, _, hd, -⟩
    · exact h
    · rw [hd] at hsucceeds
      cases hsucceeds

end Source

end Abacus
