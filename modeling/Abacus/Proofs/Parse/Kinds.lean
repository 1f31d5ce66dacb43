import Mathlib
import Abacus.Proofs.Expr.Shape
import Abacus.Proofs.Parse.Messages

/-!
# Parsing looks at the kinds of tokens

Tokens of the same kinds are parsed to trees of the same shape, or fail with the same
message at the same token.
-/

namespace Abacus

namespace Parse

def SameKinds (ts us : List Token) : Prop :=
  us.map Token.kind = ts.map Token.kind

variable {ts us ls rs : List Token} {kind : Token.Kind} {mark : Span}

namespace SameKinds

theorem of_cons (h : SameKinds (⟨kind, mark⟩ :: ts) us) :
    ∃ mark' vs, us = ⟨kind, mark'⟩ :: vs ∧ SameKinds ts vs := by
  obtain ⟨⟨_, mark'⟩, vs, rfl, rfl, hvs⟩ := List.map_eq_cons_iff.mp h
  exact ⟨mark', vs, rfl, hvs⟩

theorem of_append (h : SameKinds (ls ++ rs) us) :
    ∃ ls' rs', us = ls' ++ rs' ∧ SameKinds ls ls' ∧ SameKinds rs rs' := by
  rw [SameKinds, List.map_append] at h
  exact List.map_eq_append_iff.mp h

theorem of_singleton (h : SameKinds [⟨kind, mark⟩] us) : ∃ mark', us = [⟨kind, mark'⟩] := by
  obtain ⟨mark', vs, rfl, hvs⟩ := h.of_cons
  exact ⟨mark', congrArg _ (List.map_eq_nil_iff.mp hvs)⟩

theorem of_append_cons (h : SameKinds (ls ++ ⟨kind, mark⟩ :: rs) us) :
    ∃ ls' mark' rs', us = ls' ++ ⟨kind, mark'⟩ :: rs' ∧ SameKinds ls ls' ∧ SameKinds rs rs' := by
  obtain ⟨ls', vs, rfl, hls, hvs⟩ := h.of_append
  obtain ⟨mark', rs', rfl, hrs⟩ := hvs.of_cons
  exact ⟨ls', mark', rs', rfl, hls, hrs⟩

theorem symm (h : SameKinds ts us) : SameKinds us ts :=
  Eq.symm h

theorem forall_kind (h : SameKinds ts us) {p : Token.Kind -> Prop} (hts : ∀ t ∈ ts, p t.kind) :
    ∀ u ∈ us, p u.kind := by
  intro u hu
  have hkind := List.mem_map_of_mem (f := Token.kind) hu
  rw [h] at hkind
  obtain ⟨t, ht, hkind⟩ := List.mem_map.mp hkind
  rw [← hkind]
  exact hts t ht

theorem take (h : SameKinds ts us) (n : Nat) : SameKinds (ts.take n) (us.take n) := by
  rw [SameKinds, List.map_take, List.map_take, h]

theorem ended (h : SameKinds ts us) (hts : Expr.Ended ts) : Expr.Ended us := by
  obtain ⟨last, hlast, hkind⟩ := hts
  have hend : us.getLast?.map Token.kind = some .eof := by
    rw [← List.getLast?_map, h, List.getLast?_map, hlast, Option.map_some, hkind]
  exact Option.map_eq_some_iff.mp hend

end SameKinds

/-! ## Trees -/

/-- What is derived from some tokens is derived, up to marks, from others of the same kinds. -/
theorem Derives.copy {symbol : Symbol} {tree : Expr} (h : Derives symbol ts tree)
    (hus : SameKinds ts us) : ∃ copy, Derives symbol us copy ∧ copy.SameShape tree := by
  induction h generalizing us with
  | assign _ ih =>
      obtain ⟨s, vs, rfl, hvs⟩ := hus.of_cons
      obtain ⟨mark, ws, rfl, hws⟩ := hvs.of_cons
      obtain ⟨s', xs, rfl, hxs⟩ := hws.of_cons
      obtain ⟨copy, hcopy, hshape⟩ := ih hxs
      exact ⟨_, .assign hcopy, .assign hshape⟩
  | expression _ ih =>
      obtain ⟨copy, hcopy, hshape⟩ := ih hus
      exact ⟨copy, .expression hcopy, hshape⟩
  | sum _ ih =>
      obtain ⟨copy, hcopy, hshape⟩ := ih hus
      exact ⟨copy, .sum hcopy, hshape⟩
  | addition hop _ _ ihleft ihright =>
      obtain ⟨ls, mark, rs, rfl, hls, hrs⟩ := hus.of_append_cons
      obtain ⟨left, hleft, hlshape⟩ := ihleft hls
      obtain ⟨right, hright, hrshape⟩ := ihright hrs
      exact ⟨_, .addition hop hleft hright, .binary hlshape hrshape⟩
  | product _ ih =>
      obtain ⟨copy, hcopy, hshape⟩ := ih hus
      exact ⟨copy, .product hcopy, hshape⟩
  | multiplication hop _ _ ihleft ihright =>
      obtain ⟨ls, mark, rs, rfl, hls, hrs⟩ := hus.of_append_cons
      obtain ⟨left, hleft, hlshape⟩ := ihleft hls
      obtain ⟨right, hright, hrshape⟩ := ihright hrs
      exact ⟨_, .multiplication hop hleft hright, .binary hlshape hrshape⟩
  | plus _ ih =>
      obtain ⟨mark, vs, rfl, hvs⟩ := hus.of_cons
      obtain ⟨copy, hcopy, hshape⟩ := ih hvs
      exact ⟨_, .plus hcopy, .unary hshape⟩
  | minus _ ih =>
      obtain ⟨mark, vs, rfl, hvs⟩ := hus.of_cons
      obtain ⟨copy, hcopy, hshape⟩ := ih hvs
      exact ⟨_, .minus hcopy, .unary hshape⟩
  | factor _ ih =>
      obtain ⟨copy, hcopy, hshape⟩ := ih hus
      exact ⟨copy, .factor hcopy, hshape⟩
  | power _ ih =>
      obtain ⟨copy, hcopy, hshape⟩ := ih hus
      exact ⟨copy, .power hcopy, hshape⟩
  | exponentiation _ _ ihleft ihright =>
      obtain ⟨ls, mark, rs, rfl, hls, hrs⟩ := hus.of_append_cons
      obtain ⟨left, hleft, hlshape⟩ := ihleft hls
      obtain ⟨right, hright, hrshape⟩ := ihright hrs
      exact ⟨_, .exponentiation hleft hright, .binary hlshape hrshape⟩
  | literal =>
      obtain ⟨mark, rfl⟩ := hus.of_singleton
      exact ⟨_, .literal, .literal⟩
  | access =>
      obtain ⟨mark, rfl⟩ := hus.of_singleton
      exact ⟨_, .access, .access⟩
  | paren _ ih =>
      obtain ⟨vs, last, rfl, hvs, hlast⟩ := hus.of_append
      obtain ⟨s, ws, rfl, hws⟩ := hvs.of_cons
      obtain ⟨s', rfl⟩ := hlast.of_singleton
      obtain ⟨copy, hcopy, hshape⟩ := ih hws
      exact ⟨copy, .paren hcopy, hshape⟩

/-! ## Messages -/

theorem SameKinds.run_eq (h : SameKinds ts us) (s : State) : s.run us = s.run ts := by
  induction ts generalizing s us with
  | nil => rw [List.map_eq_nil_iff.mp h]
  | cons t ts ih =>
      obtain ⟨mark, vs, rfl, hvs⟩ := h.of_cons
      rw [State.run_cons, State.run_cons]
      cases s.step t.kind with
      | none => rfl
      | some next => exact ih hvs next

theorem SameKinds.refused_iff (h : SameKinds ts us) : Refused us ↔ Refused ts := by
  rw [Parse.refused_iff, Parse.refused_iff, h.run_eq]

/-- Two lists of tokens of the same kinds are refused at the same place, for the same reason. -/
theorem SameKinds.expected_eq {e f : Error} (h : SameKinds ts us) (hts : Expr.Ended ts)
    (he : Expr.ofTokens ts = .error e) (hf : Expr.ofTokens us = .error f) :
    f.expected = e.expected := by
  obtain ⟨bs, u, rest', place', depth', rfl, hrun', hstep', rfl⟩ := ofTokens_error (h.ended hts) hf
  obtain ⟨as, t, rest, place, depth, rfl, hrun, hstep, rfl⟩ := ofTokens_error hts he
  have hlength : bs.length = as.length := by
    apply IsLeast.unique (isLeast_refused hrun' hstep')
    have hset : {j | Refused ((bs ++ u :: rest').take (j + 1))} =
        {j | Refused ((as ++ t :: rest).take (j + 1))} :=
      Set.ext fun j => (h.take (j + 1)).refused_iff
    rw [hset]
    exact isLeast_refused hrun hstep
  have hbefore : SameKinds as bs := by
    have htake := h.take as.length
    rwa [List.take_left, ← hlength, List.take_left] at htake
  rw [hbefore.run_eq, hrun] at hrun'
  cases hrun'
  rfl

/-! ## The parser -/

/-- The same tree up to marks, or the same problem. -/
inductive SameReading : Except Diagnostic Expr -> Except Diagnostic Expr -> Prop where
  | ok {tree copy : Expr} (shape : copy.SameShape tree) : SameReading (.ok tree) (.ok copy)
  | error {d d' : Diagnostic} (kind_eq : d'.kind = d.kind) (message_eq : d'.message = d.message) :
      SameReading (.error d) (.error d')

/-- Of tokens up to the end of the input, the parser sees the kinds only. -/
theorem SameKinds.sameReading (h : SameKinds (ts ++ [⟨.eof, mark⟩]) us)
    (hts : ∀ t ∈ ts, t.kind ≠ .eof) :
    SameReading (Expr.parse (ts ++ [⟨.eof, mark⟩])) (Expr.parse us) := by
  obtain ⟨vs, last, rfl, hvs, hlast⟩ := h.of_append
  obtain ⟨mark', rfl⟩ := hlast.of_singleton
  have hends : ∀ t ∈ vs, t.kind ≠ .eof :=
    hvs.forall_kind (p := fun kind => kind ≠ .eof) hts
  cases hparse : Expr.parse (ts ++ [⟨.eof, mark⟩]) with
  | ok tree =>
      have hderives := (ofTokens_append_eof_iff hts rfl).mp (Expr.parse_eq_ok_iff.mp hparse)
      obtain ⟨copy, hcopy, hshape⟩ := hderives.copy hvs
      rw [Expr.parse_eq_ok_iff.mpr ((ofTokens_append_eof_iff hends rfl).mpr hcopy)]
      exact .ok hshape
  | error d =>
      obtain ⟨e, he, rfl⟩ := mapError_eq_error_iff.mp hparse
      cases hcopy : Expr.parse (vs ++ [⟨.eof, mark'⟩]) with
      | ok copy =>
          have hderives := (ofTokens_append_eof_iff hends rfl).mp (Expr.parse_eq_ok_iff.mp hcopy)
          obtain ⟨tree, htree, -⟩ := hderives.copy hvs.symm
          cases he.symm.trans ((ofTokens_append_eof_iff hts rfl).mpr htree)
      | error d' =>
          obtain ⟨f, hf, rfl⟩ := mapError_eq_error_iff.mp hcopy
          have hexpected := h.expected_eq (Expr.ended_concat ts mark) he hf
          exact .error rfl (congrArg Expected.message hexpected)

theorem parse_assign (s s' : Span) (name : String) (h : Expr.Ended ts) :
    Expr.parse (⟨.keyword .var, s⟩ :: ⟨.identifier name, mark⟩ :: ⟨.assign, s'⟩ :: ts) =
      (Expr.parse ts).map (.assign name mark) := by
  obtain ⟨last, hlast, hkind⟩ := h
  have hlast' : (⟨.keyword .var, s⟩ :: ⟨.identifier name, mark⟩ :: ⟨.assign, s'⟩ :: ts).getLast? =
      some last := by
    cases ts with
    | nil => cases hlast
    | cons t ts => exact hlast
  rw [Expr.parse, Expr.parse, Expr.ofTokens_of_getLast? hlast hkind,
    Expr.ofTokens_of_getLast? hlast' hkind, Rule.read_assignment]
  cases Rule.expression.read ts with
  | error f => rfl
  | ok p =>
      by_cases hrest : headKind? p.2 = some .eof
      · simp only [if_pos hrest]
        rfl
      · simp only [if_neg hrest]
        rfl

end Parse

end Abacus
