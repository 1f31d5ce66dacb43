import Abacus.Proofs.Parse.Machine

/-!
# The first end of the input

The parser looks no further than the first token that stands for the end of the input.
What it accepts ends there, and a list of tokens that it refuses stops to fit at one
token, which is not behind that end.
-/

namespace Abacus

namespace Parse

open State

/-! ## Where the machine stops -/

theorem prefix_of_misfit {s a b : State} {as bs rest rest' : List Token} {t : Token}
    (has : s.run as = some a) (ht : a.step t.kind = none) (hbs : s.run bs = some b)
    (h : as ++ t :: rest = bs ++ rest') : bs <+: as := by
  rcases List.append_eq_append_iff.mp h with ⟨cs, rfl, hcs⟩ | ⟨cs, rfl, _⟩
  · cases cs with
    | nil => exact ⟨[], by simp⟩
    | cons c cs =>
        rw [← (List.cons.inj hcs).1, run_eq_none_of_misfit has ht] at hbs
        cases hbs
  · exact List.prefix_append bs cs

theorem misfit_unique {s a b : State} {as bs rest rest' : List Token} {t u : Token}
    (has : s.run as = some a) (ht : a.step t.kind = none)
    (hbs : s.run bs = some b) (hu : b.step u.kind = none)
    (h : as ++ t :: rest = bs ++ u :: rest') : as = bs ∧ t = u := by
  have hprefix : as <+: bs := prefix_of_misfit hbs hu has h.symm
  have hprefix' : bs <+: as := prefix_of_misfit has ht hbs h
  have heq : as = bs :=
    hprefix.eq_of_length (Nat.le_antisymm hprefix.length_le hprefix'.length_le)
  subst heq
  exact ⟨rfl, (List.cons.inj (List.append_cancel_left h)).1⟩

/-! ## What comes behind the end -/

variable {ts us : List Token} {e : Token}

theorem ended_append (he : e.kind = .eof) (hus : us = [] ∨ Expr.Ended us) :
    Expr.Ended (ts ++ [e] ++ us) := by
  rcases hus with rfl | ⟨last, hlast, hkind⟩
  · exact ⟨e, by simp, he⟩
  · exact ⟨last, by rw [List.getLast?_append, hlast, Option.some_or], hkind⟩

/-- What is accepted up to the first end of the input is accepted with anything behind it. -/
theorem ofTokens_append_of_ok {tree : Expr} (hts : ∀ t ∈ ts, t.kind ≠ .eof) (he : e.kind = .eof)
    (hended : Expr.Ended (ts ++ [e] ++ us)) (h : Expr.ofTokens (ts ++ [e]) = .ok tree) :
    Expr.ofTokens (ts ++ [e] ++ us) = .ok tree := by
  have hderives := (ofTokens_append_eof_iff hts he).mp h
  have hstops : Stops Level.sum.rank (e :: us) := by
    intro op hop
    rw [headKind?_cons, he] at hop
    cases hop
  refine Expr.ofTokens_eq_ok_iff.mpr ⟨hended, e :: us, ?_, by rw [headKind?_cons, he]⟩
  rw [List.append_assoc]
  exact hderives.complete (e :: us) hstops

/-- The machine is done at the first end of the input, so that it cannot stop behind it. -/
theorem exists_ok_of_append {tree : Expr} (he : e.kind = .eof)
    (h : Expr.ofTokens (ts ++ [e] ++ us) = .ok tree) :
    ∃ tree', Expr.ofTokens (ts ++ [e]) = .ok tree' := by
  have hrun := (ofTokens_ok_iff.mp ⟨tree, h⟩).2
  rw [run_append] at hrun
  obtain ⟨middle, hmiddle, -⟩ := Option.bind_eq_some_iff.mp hrun
  have hmem : e ∈ ts ++ [e] := List.mem_append_right ts (List.mem_singleton.mpr rfl)
  refine ofTokens_ok_iff.mpr ⟨⟨e, by simp, he⟩, ?_⟩
  rw [hmiddle, run_eq_done_of_eof hmem he hmiddle]

theorem error_eq_of_append {as bs : List Token} {f g : Error} (has : Expr.Ended as)
    (hbs : Expr.Ended (as ++ bs)) (hf : Expr.ofTokens as = .error f)
    (hg : Expr.ofTokens (as ++ bs) = .error g) : g = f := by
  obtain ⟨before, t, rest, place, depth, rfl, hrun, hstep, rfl⟩ := ofTokens_error has hf
  obtain ⟨before', u, rest', place', depth', happend, hrun', hstep', rfl⟩ := ofTokens_error hbs hg
  rw [List.append_assoc, List.cons_append] at happend
  obtain ⟨rfl, rfl⟩ := misfit_unique hrun hstep hrun' hstep' happend
  rw [hrun] at hrun'
  cases hrun'
  rfl

/--
The parser ignores what comes behind the first end of the input: it gives the same tree
or the same diagnostic for every list that goes on there.
-/
theorem parse_append_eof (hts : ∀ t ∈ ts, t.kind ≠ .eof) (he : e.kind = .eof)
    (hus : us = [] ∨ Expr.Ended us) :
    Expr.parse (ts ++ [e] ++ us) = Expr.parse (ts ++ [e]) := by
  have hended : Expr.Ended (ts ++ [e] ++ us) := ended_append he hus
  refine congrArg (Except.mapError Parse.Error.diagnostic) ?_
  cases h : Expr.ofTokens (ts ++ [e]) with
  | ok tree => exact ofTokens_append_of_ok hts he hended h
  | error f =>
      cases h' : Expr.ofTokens (ts ++ [e] ++ us) with
      | ok tree =>
          obtain ⟨tree', hok⟩ := exists_ok_of_append he h'
          cases h.symm.trans hok
      | error g => rw [error_eq_of_append ⟨e, by simp, he⟩ hended h h']

/-- A parenthesis that is closed behind the first end of the input is not closed. -/
theorem parse_append_eof_unclosed :
    Expr.parse ([⟨.leftParen, nowhere⟩, ⟨.identifier "x", nowhere⟩] ++
        [⟨.eof, .point ⟨"text", "(x"⟩ ⟨2, 0, 2⟩⟩] ++
        [⟨.rightParen, nowhere⟩, ⟨.eof, nowhere⟩, ⟨.keyword .var, nowhere⟩, ⟨.eof, nowhere⟩]) =
      .error ⟨.invalidSyntax, "Expected ')'", .point ⟨"text", "(x"⟩ ⟨2, 0, 2⟩, []⟩ := by
  have herror : Expr.ofTokens [⟨.leftParen, nowhere⟩, ⟨.identifier "x", nowhere⟩,
      ⟨.eof, .point ⟨"text", "(x"⟩ ⟨2, 0, 2⟩⟩] =
      .error ⟨.closing, .point ⟨"text", "(x"⟩ ⟨2, 0, 2⟩⟩ := by cbv
  exact (parse_append_eof (by simp) rfl (.inr ⟨_, rfl, rfl⟩)).trans
    (congrArg (Except.mapError Parse.Error.diagnostic) herror)

end Parse

end Abacus
