import Mathlib
import Abacus.Proofs.Parse.Machine

/-!
# What a syntax error says

The message of a syntax error can be told from the tokens just before the one that does not
fit and, after an operand, from the number of parentheses that are open there.
-/

namespace Abacus

namespace Parse

open State

/-! ## What stands before a place -/

def Place.Follows (kinds : List Token.Kind) : Place -> Prop
  | expression => kinds = [] ∨ [.leftParen] <:+ kinds ∨ [.assign] <:+ kinds
  | operand => ∃ op, [.operator op] <:+ kinds
  | name => [.keyword .var] <:+ kinds
  | equals => ∃ name, [.keyword .var, .identifier name] <:+ kinds
  | operator =>
      (∃ value, [.literal value] <:+ kinds) ∨ [.rightParen] <:+ kinds ∨
        ∃ name, [.identifier name] <:+ kinds ∧ ¬ [.keyword .var, .identifier name] <:+ kinds

/-- The place after some tokens, by a look at the last two of them. -/
def Place.after (kinds : List Token.Kind) : Place :=
  match kinds.reverse with
  | [] => expression
  | .leftParen :: _ => expression
  | .assign :: _ => expression
  | .operator _ :: _ => operand
  | .keyword .var :: _ => name
  | .identifier _ :: .keyword .var :: _ => equals
  | _ => operator

section

variable {kinds : List Token.Kind}

theorem suffix_var_identifier_iff {name : String} :
    [.keyword .var, .identifier name] <:+ kinds ++ [.identifier name] ↔
      [.keyword .var] <:+ kinds := by
  have h : [.keyword .var] ++ [.identifier name] <:+ kinds ++ [.identifier name] ↔ _ :=
    List.suffix_append_inj_of_length_eq rfl
  simpa using h

theorem Place.after_identifier {name : String} (h : ¬ [.keyword .var] <:+ kinds) :
    Place.after (kinds ++ [.identifier name]) = operator := by
  rcases List.eq_nil_or_concat kinds with rfl | ⟨front, last, rfl⟩
  · rfl
  · have hlast : last ≠ .keyword .var := by
      rintro rfl
      exact h (by simp)
    simp [after, hlast]

theorem Place.Follows.eq_after {place : Place} (h : place.Follows kinds) :
    place = Place.after kinds := by
  cases place with
  | expression =>
      rcases h with rfl | ⟨front, rfl⟩ | ⟨front, rfl⟩
      · rfl
      · simp [after]
      · simp [after]
  | operand =>
      obtain ⟨op, front, rfl⟩ := h
      simp [after]
  | name =>
      obtain ⟨front, rfl⟩ := h
      simp [after]
  | equals =>
      obtain ⟨name, front, rfl⟩ := h
      simp [after]
  | operator =>
      rcases h with ⟨value, front, rfl⟩ | ⟨front, rfl⟩ | ⟨name, ⟨front, rfl⟩, hvar⟩
      · simp [after]
      · simp [after]
      · rw [suffix_var_identifier_iff] at hvar
        exact (after_identifier hvar).symm

theorem Place.Follows.unique {place other : Place} (h : place.Follows kinds)
    (h' : other.Follows kinds) : place = other :=
  h.eq_after.trans h'.eq_after.symm

/-! ## The machine is where its last tokens tell -/

/-- The place and the depth are those that the tokens read so far tell. -/
def State.Agrees (kinds : List Token.Kind) : State -> Prop
  | reading place depth =>
      place.Follows kinds ∧ depth + kinds.count .rightParen = kinds.count .leftParen
  | done => True

theorem agrees_of_operandStep {depth : Nat} {kind : Token.Kind} {next : State}
    (hvar : ¬ [.keyword .var] <:+ kinds)
    (hdepth : depth + kinds.count .rightParen = kinds.count .leftParen)
    (h : operandStep depth kind = some next) : next.Agrees (kinds ++ [kind]) := by
  have hlast : [kind] <:+ kinds ++ [kind] := List.suffix_append kinds [kind]
  cases kind with
  | literal value =>
      cases h
      exact ⟨.inl ⟨value, hlast⟩, by simpa using hdepth⟩
  | identifier name =>
      cases h
      have hpair : ¬ [.keyword .var, .identifier name] <:+ kinds ++ [.identifier name] :=
        mt suffix_var_identifier_iff.mp hvar
      exact ⟨.inr (.inr ⟨name, hlast, hpair⟩), by simpa using hdepth⟩
  | leftParen =>
      cases h
      refine ⟨.inr (.inl hlast), ?_⟩
      simp
      omega
  | operator op =>
      obtain ⟨sign, -, rfl⟩ := Option.map_eq_some_iff.mp h
      exact ⟨⟨op, hlast⟩, by simpa using hdepth⟩
  | _ => cases h

theorem agrees_of_operatorStep {depth : Nat} {kind : Token.Kind} {next : State}
    (hdepth : depth + kinds.count .rightParen = kinds.count .leftParen)
    (h : operatorStep depth kind = some next) : next.Agrees (kinds ++ [kind]) := by
  have hlast : [kind] <:+ kinds ++ [kind] := List.suffix_append kinds [kind]
  cases kind with
  | operator op =>
      cases h
      exact ⟨⟨op, hlast⟩, by simpa using hdepth⟩
  | rightParen =>
      cases depth with
      | zero => cases h
      | succ outside =>
          cases h
          refine ⟨.inr (.inl hlast), ?_⟩
          simp
          omega
  | eof =>
      obtain ⟨-, h⟩ := Option.ite_none_right_eq_some.mp h
      cases h
      trivial
  | _ => cases h

end

theorem State.Agrees.step {kinds : List Token.Kind} {s next : State} {kind : Token.Kind}
    (h : s.Agrees kinds) (hstep : s.step kind = some next) : next.Agrees (kinds ++ [kind]) := by
  have hlast : [kind] <:+ kinds ++ [kind] := List.suffix_append kinds [kind]
  cases s with
  | done =>
      cases hstep
      trivial
  | reading place depth =>
      obtain ⟨hplace, hdepth⟩ := h
      have hvar : place ≠ .name -> ¬ [.keyword .var] <:+ kinds := by
        intro hne hvar
        have hname : Place.name.Follows kinds := hvar
        exact hne (hplace.unique hname)
      cases place with
      | expression =>
          cases kind with
          | keyword word =>
              cases word with
              | var =>
                  cases hstep
                  exact ⟨hlast, by simpa using hdepth⟩
              | not => cases hstep
          | _ => exact agrees_of_operandStep (hvar (by decide)) hdepth hstep
      | operand => exact agrees_of_operandStep (hvar (by decide)) hdepth hstep
      | name =>
          cases kind with
          | identifier name =>
              cases hstep
              exact ⟨⟨name, suffix_var_identifier_iff.mpr hplace⟩, by simpa using hdepth⟩
          | _ => cases hstep
      | equals =>
          cases kind with
          | assign =>
              cases hstep
              exact ⟨.inr (.inr hlast), by simpa using hdepth⟩
          | _ => cases hstep
      | operator => exact agrees_of_operatorStep hdepth hstep

theorem State.Agrees.run {kinds : List Token.Kind} {s next : State} {ts : List Token}
    (h : s.Agrees kinds) (hrun : s.run ts = some next) :
    next.Agrees (kinds ++ ts.map Token.kind) := by
  induction ts generalizing s kinds with
  | nil =>
      cases hrun
      simpa using h
  | cons t ts ih =>
      rw [run_cons] at hrun
      obtain ⟨middle, hstep, hrest⟩ := Option.bind_eq_some_iff.mp hrun
      simpa using ih (h.step hstep) hrest

theorem agrees_start : start.Agrees [] :=
  ⟨.inl rfl, rfl⟩

/-! ## The first token that is refused -/

/-- No list of tokens that begins with these is accepted. -/
def Refused (ts : List Token) : Prop :=
  ∀ more tree, Expr.parse (ts ++ more) ≠ .ok tree

theorem exists_completion (s : State) (ts : List Token) :
    ∃ more, Expr.Ended (ts ++ more) ∧ s.run more = some done := by
  cases s with
  | done => exact ⟨[⟨.eof, nowhere⟩], ended_completion ts .operator 0, rfl⟩
  | reading place depth =>
      exact ⟨place.finish ++ close depth, ended_completion ts place depth,
        run_completion place depth⟩

/-- The machine stops just where no completion is left. -/
theorem refused_iff {ts : List Token} : Refused ts ↔ start.run ts = none := by
  constructor
  · intro h
    cases hrun : start.run ts with
    | none => rfl
    | some s =>
        obtain ⟨more, hended, hmore⟩ := exists_completion s ts
        rw [← run_append_of_run hrun] at hmore
        obtain ⟨tree, hparse⟩ := parse_ok_iff.mpr ⟨hended, hmore⟩
        exact absurd hparse (h more tree)
  · intro h more tree hparse
    have hrun := (parse_ok_iff.mp ⟨tree, hparse⟩).2
    rw [run_append, h] at hrun
    cases hrun

theorem isLeast_refused {us rest : List Token} {t : Token} {s : State}
    (hrun : start.run us = some s) (hstep : s.step t.kind = none) :
    IsLeast {j | Refused ((us ++ t :: rest).take (j + 1))} us.length := by
  constructor
  · have htake : (us ++ t :: rest).take (us.length + 1) = us ++ [t] := by
      rw [List.take_append, List.take_of_length_le (by omega)]
      simp
    have hstop : start.run (us ++ [t]) = none := run_eq_none_of_misfit hrun hstep []
    exact refused_iff.mpr (htake ▸ hstop)
  · intro j hj
    by_contra hlt
    have hsplit : us = (us ++ t :: rest).take (j + 1) ++ us.drop (j + 1) := by
      rw [List.take_append_of_le_length (by omega), List.take_append_drop]
    rw [hsplit, run_append, refused_iff.mp hj] at hrun
    cases hrun

/-! ## What was looked for -/

theorem message_eq_iff {place other : Place} (hother : other ≠ .operator) (depth : Nat) :
    (reading place depth).expected.message = (reading other 0).expected.message ↔
      place = other := by
  constructor
  · intro h
    have hexpected := Expected.message_injective h
    cases place with
    | operator => cases depth <;> cases other <;> simp_all [State.expected]
    | _ => cases other <;> simp_all [State.expected]
  · rintro rfl
    cases place with
    | operator => exact absurd rfl hother
    | _ => rfl

/-- The message tells the place, but for the one after an operand. -/
theorem Place.Follows.message_iff {kinds : List Token.Kind} {place : Place}
    (h : place.Follows kinds) (depth : Nat) (other : Place) (hother : other ≠ .operator) :
    (reading place depth).expected.message = (reading other 0).expected.message ↔
      other.Follows kinds := by
  rw [message_eq_iff hother]
  constructor
  · rintro rfl
    exact h
  · intro hfollows
    exact h.unique hfollows

/--
The message of a syntax error is told by what stands just before the first token that is
refused.  After an operand it depends on whether more parentheses were opened than closed.
-/
theorem parse_error_message {tokens : List Token} {d : Diagnostic}
    (hended : Expr.Ended tokens) (h : Expr.parse tokens = .error d) :
    ∃ k t, IsLeast {j | Refused (tokens.take (j + 1))} k ∧ tokens[k]? = some t ∧
      d.span = t.span ∧
      let kinds := (tokens.take k).map Token.kind
      (d.message = Expected.expression.message ↔ Place.expression.Follows kinds) ∧
      (d.message = Expected.operand.message ↔ Place.operand.Follows kinds) ∧
      (d.message = "Expected identifier" ↔ Place.name.Follows kinds) ∧
      (d.message = "Expected '='" ↔ Place.equals.Follows kinds) ∧
      ((∀ place : Place, place ≠ .operator -> ¬ place.Follows kinds) ->
        Place.operator.Follows kinds ∧
          d.message =
            if kinds.count .rightParen < kinds.count .leftParen then "Expected ')'"
            else Expected.operator.message) := by
  obtain ⟨e, he, rfl⟩ := mapError_eq_error_iff.mp h
  obtain ⟨us, t, rest, place, depth, rfl, hrun, hstep, rfl⟩ := ofTokens_error hended he
  refine ⟨us.length, t, isLeast_refused hrun hstep, by simp, rfl, ?_⟩
  rw [List.take_left]
  obtain ⟨hplace, hdepth⟩ : (reading place depth).Agrees (us.map Token.kind) :=
    agrees_start.run hrun
  refine ⟨hplace.message_iff depth .expression (by decide),
    hplace.message_iff depth .operand (by decide), hplace.message_iff depth .name (by decide),
    hplace.message_iff depth .equals (by decide), ?_⟩
  intro hothers
  have hoperator : place = .operator := by
    by_contra hne
    exact hothers place hne hplace
  subst hoperator
  refine ⟨hplace, ?_⟩
  cases depth with
  | zero =>
      rw [if_neg (by omega)]
      rfl
  | succ outside =>
      rw [if_pos (by omega)]
      rfl

/-- The tokens of `(var x=y z`, where a parenthesis is left open. -/
def unclosed : List Token :=
  [.leftParen, .keyword .var, .identifier "x", .assign, .identifier "y", .identifier "z",
    .eof].zipIdx.map fun (kind, n) => ⟨kind, .point ⟨"text", "(var x=y z"⟩ ⟨n, 0, n⟩⟩

theorem parse_error_message_unclosed :
    ∃ d, Expr.parse unclosed = .error d ∧
      IsLeast {j | Refused (unclosed.take (j + 1))} 5 ∧
      Place.operator.Follows ((unclosed.take 5).map Token.kind) ∧
      d.message = "Expected ')'" := by
  have hended : Expr.Ended unclosed := ⟨_, rfl, rfl⟩
  have herror : Expr.ofTokens unclosed =
      .error ⟨.closing, .point ⟨"text", "(var x=y z"⟩ ⟨5, 0, 5⟩⟩ := by cbv
  have hparse := congrArg (Except.mapError Parse.Error.diagnostic) herror
  obtain ⟨k, t, hleast, hk, hspan, hexpression, hoperand, hname, hequals, hotherwise⟩ :=
    parse_error_message hended hparse
  have hfive : 5 = k := by
    obtain ⟨⟨kind, n⟩, hn, rfl⟩ := Option.map_eq_some_iff.mp (List.getElem?_map ▸ hk)
    rw [List.getElem?_zipIdx, Nat.zero_add] at hn
    obtain ⟨_, -, hpair⟩ := Option.map_eq_some_iff.mp hn
    cases hpair
    exact congrArg (·.start.offset) hspan
  subst hfive
  refine ⟨_, hparse, hleast, hotherwise ?_⟩
  intro place hplace hfollows
  cases place with
  | expression => exact absurd (hexpression.mpr hfollows) (by decide)
  | operand => exact absurd (hoperand.mpr hfollows) (by decide)
  | name => exact absurd (hname.mpr hfollows) (by decide)
  | equals => exact absurd (hequals.mpr hfollows) (by decide)
  | operator => exact hplace rfl

end Parse

end Abacus
