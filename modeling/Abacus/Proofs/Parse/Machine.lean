import Abacus.Proofs.Parse.Grammar

/-!
# Where a list of tokens stops to fit

A machine that reads one token after the other knows, from what stands before it
and the number of open parentheses, which tokens may come next.  Each of its states
can be completed, and the parser stops at the token at which the machine does.
-/

namespace Abacus

namespace Parse

inductive Place where
  | expression
  | operand
  | name
  | equals
  | operator
deriving DecidableEq

/-- What is to come next inside of some parentheses, or the end of the input. -/
inductive State where
  | reading (place : Place) (depth : Nat)
  | done
deriving DecidableEq

namespace State

def operandStep (depth : Nat) : Token.Kind -> Option State
  | .literal _ => some (reading .operator depth)
  | .identifier _ => some (reading .operator depth)
  | .leftParen => some (reading .expression (depth + 1))
  | .operator op => (Sign.ofOperator? op).map fun _ => reading .operand depth
  | _ => none

def operatorStep (depth : Nat) : Token.Kind -> Option State
  | .operator _ => some (reading .operand depth)
  | .rightParen =>
      match depth with
      | 0 => none
      | outside + 1 => some (reading .operator outside)
  | .eof => if depth = 0 then some done else none
  | _ => none

/-- The state after a token, if it fits; behind the end of the input every token does. -/
def step : State -> Token.Kind -> Option State
  | done, _ => some done
  | reading .expression depth, .keyword .var => some (reading .name depth)
  | reading .expression depth, kind => operandStep depth kind
  | reading .operand depth, kind => operandStep depth kind
  | reading .name depth, .identifier _ => some (reading .equals depth)
  | reading .equals depth, .assign => some (reading .expression depth)
  | reading .operator depth, kind => operatorStep depth kind
  | _, _ => none

def run : State -> List Token -> Option State
  | s, [] => some s
  | s, t :: ts => (s.step t.kind).bind fun next => run next ts

@[simp] theorem run_nil (s : State) : s.run [] = some s :=
  rfl

theorem run_cons (s : State) (t : Token) (ts : List Token) :
    s.run (t :: ts) = (s.step t.kind).bind fun next => next.run ts :=
  rfl

theorem run_append (s : State) (ts us : List Token) :
    s.run (ts ++ us) = (s.run ts).bind fun next => next.run us := by
  induction ts generalizing s with
  | nil => rfl
  | cons t ts ih =>
      simp only [List.cons_append, run_cons]
      cases s.step t.kind with
      | none => rfl
      | some next => exact ih next

theorem run_append_of_run {s next : State} {ts : List Token} (h : s.run ts = some next)
    (us : List Token) : s.run (ts ++ us) = next.run us := by
  rw [run_append, h, Option.bind_some]

theorem run_cons_of_step {s next : State} {t : Token} (h : s.step t.kind = some next)
    (ts : List Token) : s.run (t :: ts) = next.run ts := by
  rw [run_cons, h, Option.bind_some]

/-- The machine does not go on behind a token that does not fit. -/
theorem run_eq_none_of_misfit {s next : State} {ts : List Token} {t : Token}
    (hts : s.run ts = some next) (ht : next.step t.kind = none) (rest : List Token) :
    s.run (ts ++ t :: rest) = none := by
  rw [run_append_of_run hts, run_cons, ht]
  rfl

@[simp] theorem run_done (ts : List Token) : done.run ts = some done := by
  induction ts with
  | nil => rfl
  | cons t ts ih => exact ih

theorem step_eof {s next : State} (h : s.step .eof = some next) : next = done := by
  cases s with
  | done =>
      cases h
      rfl
  | reading place depth =>
      cases place with
      | operator =>
          simp only [step, operatorStep] at h
          split at h
          · cases h
            rfl
          · cases h
      | _ => cases h

theorem run_eq_done_of_eof {s next : State} {ts : List Token} {t : Token} (ht : t ∈ ts)
    (hkind : t.kind = .eof) (h : s.run ts = some next) : next = done := by
  obtain ⟨before, after, rfl⟩ := List.append_of_mem ht
  rw [run_append] at h
  cases hbefore : s.run before with
  | none =>
      rw [hbefore] at h
      cases h
  | some middle =>
      rw [hbefore, Option.bind_some, run_cons, hkind] at h
      cases hstep : middle.step .eof with
      | none =>
          rw [hstep] at h
          cases h
      | some last =>
          rw [hstep, Option.bind_some, step_eof hstep, run_done] at h
          exact (Option.some.inj h).symm

end State

open State

/-! ## The machine reads what is derived -/

def Symbol.StartsAt (symbol : Symbol) (place : Place) : Prop :=
  match symbol with
  | expression => place = .expression
  | _ => place = .expression ∨ place = .operand

theorem step_operand {place : Place} (hplace : place = .expression ∨ place = .operand)
    {depth : Nat} {kind : Token.Kind} {next : State} (h : operandStep depth kind = some next) :
    (reading place depth).step kind = some next := by
  rcases hplace with rfl | rfl
  · cases kind with
    | keyword word => cases h
    | _ => exact h
  · exact h

theorem run_operand {place : Place} (hplace : place = .expression ∨ place = .operand)
    {depth : Nat} {t : Token} {next : State} (h : operandStep depth t.kind = some next)
    (ts : List Token) : (reading place depth).run (t :: ts) = next.run ts :=
  run_cons_of_step (step_operand hplace h) ts

theorem run_binary {place : Place} {depth : Nat} {op : Operator} {mark : Span}
    {ls rs : List Token}
    (hleft : (reading place depth).run ls = some (reading .operator depth))
    (hright : (reading .operand depth).run rs = some (reading .operator depth)) :
    (reading place depth).run (ls ++ ⟨.operator op, mark⟩ :: rs) =
      some (reading .operator depth) := by
  rw [run_append_of_run hleft]
  exact hright

theorem Derives.run {symbol : Symbol} {ts : List Token} {tree : Expr}
    (h : Derives symbol ts tree) (place : Place) (depth : Nat) (hplace : symbol.StartsAt place) :
    (reading place depth).run ts = some (reading .operator depth) := by
  induction h generalizing place depth with
  | assign _ ih =>
      cases hplace
      exact ih .expression depth rfl
  | expression _ ih =>
      cases hplace
      exact ih .expression depth (.inl rfl)
  | sum _ ih => exact ih place depth hplace
  | addition _ _ _ ihleft ihright =>
      exact run_binary (ihleft place depth hplace) (ihright .operand depth (.inr rfl))
  | product _ ih => exact ih place depth hplace
  | multiplication _ _ _ ihleft ihright =>
      exact run_binary (ihleft place depth hplace) (ihright .operand depth (.inr rfl))
  | plus _ ih =>
      rw [run_operand hplace rfl]
      exact ih .operand depth (.inr rfl)
  | minus _ ih =>
      rw [run_operand hplace rfl]
      exact ih .operand depth (.inr rfl)
  | factor _ ih => exact ih place depth hplace
  | power _ ih => exact ih place depth hplace
  | exponentiation _ _ ihleft ihright =>
      exact run_binary (ihleft place depth hplace) (ihright .operand depth (.inr rfl))
  | literal =>
      rw [run_operand hplace rfl]
      rfl
  | access =>
      rw [run_operand hplace rfl]
      rfl
  | paren _ ih =>
      rw [List.cons_append, run_operand hplace rfl]
      exact run_append_of_run (ih .expression (depth + 1) rfl) _

/-! ## The machine stops where a rule fails -/

def State.expected : State -> Expected
  | reading .expression _ => .expression
  | reading .operand _ => .operand
  | reading .name _ => .identifier
  | reading .equals _ => .assign
  | reading .operator 0 => .operator
  | reading .operator (_ + 1) => .closing
  | done => .endOfInput

def State.Blocks (s : State) (ts : List Token) : Prop :=
  ∀ kind, headKind? ts = some kind → s.step kind = none

/-- The machine reads up to the rest of a failure, stops there, and looks for the same. -/
def Stuck (s : State) (ts : List Token) (f : Failure) : Prop :=
  ∃ us place depth, ts = us ++ f.rest ∧ s.run us = some (reading place depth) ∧
    (reading place depth).Blocks f.rest ∧ f.expected = (reading place depth).expected

theorem Stuck.after {s next : State} {us ts : List Token} {f : Failure}
    (hrun : s.run us = some next) (h : Stuck next ts f) : Stuck s (us ++ ts) f := by
  obtain ⟨vs, place, depth, rfl, hvs, hblocks, hexpected⟩ := h
  refine ⟨us ++ vs, place, depth, (List.append_assoc ..).symm, ?_, hblocks, hexpected⟩
  rw [run_append_of_run hrun, hvs]

theorem Stuck.cons {s next : State} {t : Token} {ts : List Token} {f : Failure}
    (hstep : s.step t.kind = some next) (h : Stuck next ts f) : Stuck s (t :: ts) f :=
  Stuck.after (run_cons_of_step hstep []) h

theorem Stuck.here {place : Place} {depth : Nat} {ts : List Token} {expected : Expected}
    (hblocks : (reading place depth).Blocks ts)
    (hexpected : expected = (reading place depth).expected) :
    Stuck (reading place depth) ts ⟨expected, ts⟩ :=
  ⟨[], place, depth, rfl, rfl, hblocks, hexpected⟩

def OperandAt (place : Place) (ts : List Token) : Prop :=
  place = .expression ∧ headKind? ts ≠ some (.keyword .var) ∨ place = .operand

def NoSign (ts : List Token) : Prop :=
  ∀ op, headKind? ts = some (.operator op) → Sign.ofOperator? op = none

/-- The places at which a rule is called, with what is known of the tokens there. -/
def Rule.CalledAt (rule : Rule) (place : Place) (ts : List Token) : Prop :=
  match rule with
  | expression => place = .expression
  | chain .power => OperandAt place ts ∧ NoSign ts
  | chain _ => OperandAt place ts
  | more _ _ => place = .operator
  | factor => OperandAt place ts
  | atom => OperandAt place ts ∧ NoSign ts

/-- How the machine stops where a rule fails; an operand cannot know that it is the first. -/
def Rule.StuckAt (rule : Rule) (s : State) (ts : List Token) (f : Failure) : Prop :=
  match rule with
  | expression => Stuck s ts f
  | more _ _ => Stuck s ts f
  | _ => Stuck s ts f ∨ f = ⟨.operand, ts⟩ ∧ s.Blocks ts

theorem OperandAt.place {place : Place} {ts : List Token} (h : OperandAt place ts) :
    place = .expression ∨ place = .operand :=
  h.imp And.left id

theorem OperandAt.blocks {place : Place} {ts : List Token} (hplace : OperandAt place ts)
    (hsign : NoSign ts) (hatom : ∀ kind, headKind? ts = some kind → Rule.beginsAtom kind = false)
    (depth : Nat) : (reading place depth).Blocks ts := by
  intro kind hkind
  have hbegins := hatom kind hkind
  have hnone : operandStep depth kind = none := by
    cases kind with
    | operator op => simp only [operandStep, hsign op hkind, Option.map_none]
    | literal value => cases hbegins
    | identifier name => cases hbegins
    | leftParen => cases hbegins
    | _ => rfl
  rcases hplace with ⟨rfl, hvar⟩ | rfl
  · cases kind with
    | keyword word =>
        cases word with
        | var => exact absurd hkind hvar
        | not => rfl
    | _ => exact hnone
  · exact hnone

theorem Rule.StuckAt.operand {rule : Rule} {depth : Nat} {ts : List Token} {f : Failure}
    (h : rule.StuckAt (reading .operand depth) ts f) : Stuck (reading .operand depth) ts f := by
  cases rule with
  | expression => exact h
  | more level left => exact h
  | chain level =>
      rcases h with h | ⟨rfl, hblocks⟩
      · exact h
      · exact .here hblocks rfl
  | factor =>
      rcases h with h | ⟨rfl, hblocks⟩
      · exact h
      · exact .here hblocks rfl
  | atom =>
      rcases h with h | ⟨rfl, hblocks⟩
      · exact h
      · exact .here hblocks rfl

theorem Level.calledAt_left {level : Level} {place : Place} {ts : List Token}
    (h : (Rule.chain level).CalledAt place ts) : level.left.CalledAt place ts := by
  cases level with
  | sum => exact h
  | product => exact h
  | power => exact h

theorem Level.calledAt_right (level : Level) (ts : List Token) :
    level.right.CalledAt .operand ts := by
  cases level with
  | sum => exact .inr rfl
  | product => exact .inr rfl
  | power => exact .inr rfl

theorem Level.place_of_calledAt {level : Level} {place : Place} {ts : List Token}
    (h : (Rule.chain level).CalledAt place ts) : place = .expression ∨ place = .operand := by
  cases level with
  | sum => exact OperandAt.place h
  | product => exact OperandAt.place h
  | power => exact OperandAt.place h.1

theorem Level.stuckAt_of_left {level : Level} {s : State} {ts : List Token} {f : Failure}
    (h : level.left.StuckAt s ts f) : (Rule.chain level).StuckAt s ts f := by
  cases level with
  | sum => exact h
  | product => exact h
  | power => exact h

theorem Level.run_left {level : Level} {ts us : List Token} {tree : Expr}
    (h : Reads level.left ts tree us) {place : Place}
    (hplace : place = .expression ∨ place = .operand) (depth : Nat) :
    ∃ ls, ts = ls ++ us ∧ (reading place depth).run ls = some (reading .operator depth) := by
  obtain ⟨ls, hls, hderives⟩ := Level.base_of_left h.sound
  refine ⟨ls, hls, ?_⟩
  cases level with
  | sum => exact hderives.run place depth hplace
  | product => exact hderives.run place depth hplace
  | power => exact hderives.run place depth hplace

theorem Level.run_right {level : Level} {ts us : List Token} {tree : Expr}
    (h : Reads level.right ts tree us) (depth : Nat) :
    ∃ rs, ts = rs ++ us ∧ (reading .operand depth).run rs = some (reading .operator depth) := by
  cases level with
  | sum =>
      obtain ⟨rs, hrs, hderives⟩ := h.sound
      exact ⟨rs, hrs, hderives.run .operand depth (.inr rfl)⟩
  | product =>
      obtain ⟨rs, hrs, hderives⟩ := h.sound
      exact ⟨rs, hrs, hderives.run .operand depth (.inr rfl)⟩
  | power =>
      obtain ⟨rs, hrs, hderives⟩ := h.sound
      exact ⟨rs, hrs, hderives.run .operand depth (.inr rfl)⟩

theorem blocks_closing {rest : List Token} (hstops : Stops Level.sum.rank rest)
    (hclosing : headKind? rest ≠ some .rightParen) (depth : Nat) :
    (reading .operator (depth + 1)).Blocks rest := by
  intro kind hkind
  cases kind with
  | operator op => exact absurd hkind (hstops.ne_operator op)
  | rightParen => exact absurd hkind hclosing
  | _ => rfl

theorem blocks_end {rest : List Token} (hstops : Stops Level.sum.rank rest)
    (heof : headKind? rest ≠ some .eof) : (reading .operator 0).Blocks rest := by
  intro kind hkind
  cases kind with
  | operator op => exact absurd hkind (hstops.ne_operator op)
  | eof => exact absurd hkind heof
  | _ => rfl

theorem Rule.StuckAt.atOnce {level : Level} {s : State} {ts : List Token} {f : Failure}
    (h : (Rule.chain level).StuckAt s ts f) (hlen : f.rest.length = ts.length) :
    s.Blocks ts := by
  rcases h with ⟨us, place, depth, hts, hrun, hblocks, _⟩ | ⟨_, hblocks⟩
  · have hus : us = [] := by
      rw [hts, List.length_append] at hlen
      exact List.eq_nil_of_length_eq_zero (by omega)
    rw [hus, run_nil] at hrun
    rw [hus, List.nil_append] at hts
    rw [Option.some.inj hrun, hts]
    exact hblocks
  · exact hblocks

theorem Rule.StuckAt.moved {level : Level} {s : State} {ts : List Token} {f : Failure}
    (h : (Rule.chain level).StuckAt s ts f) (hlen : f.rest.length ≠ ts.length) :
    Stuck s ts f := by
  rcases h with h | ⟨rfl, _⟩
  · exact h
  · exact absurd rfl hlen

theorem Fails.stuckAt {rule : Rule} {ts : List Token} {f : Failure} (h : Fails rule ts f)
    (place : Place) (depth : Nat) (hcalled : rule.CalledAt place ts) :
    rule.StuckAt (reading place depth) ts f := by
  induction h generalizing place depth with
  | value _ ih =>
      cases hcalled
      exact Stuck.cons rfl (Stuck.cons rfl (Stuck.cons rfl (ih .expression depth rfl)))
  | equals hts =>
      cases hcalled
      refine Stuck.cons rfl (Stuck.cons rfl (Stuck.here ?_ rfl))
      intro kind hkind
      cases kind with
      | assign => exact absurd hkind hts
      | _ => rfl
  | name hts =>
      cases hcalled
      refine Stuck.cons rfl (Stuck.here ?_ rfl)
      intro kind hkind
      cases kind with
      | identifier name => exact absurd hkind (hts name)
      | _ => rfl
  | sum hvar _ hmoved ih =>
      cases hcalled
      exact (ih .expression depth (.inl ⟨rfl, hvar⟩)).moved hmoved
  | atOnce hvar _ hstayed ih =>
      cases hcalled
      exact Stuck.here ((ih .expression depth (.inl ⟨rfl, hvar⟩)).atOnce hstayed) rfl
  | left _ ih => exact Level.stuckAt_of_left (ih place depth (Level.calledAt_left hcalled))
  | chain hleft _ ih =>
      obtain ⟨ls, rfl, hls⟩ := Level.run_left hleft (Level.place_of_calledAt hcalled) depth
      exact .inl (Stuck.after hls (ih .operator depth rfl))
  | right _ ih =>
      cases hcalled
      exact Stuck.cons rfl (ih .operand depth (Level.calledAt_right _ _)).operand
  | more hright _ ih =>
      cases hcalled
      obtain ⟨rs, rfl, hrs⟩ := Level.run_right hright depth
      exact Stuck.cons rfl (Stuck.after hrs (ih .operator depth rfl))
  | @sign op sign _ _ _ hsign _ ih =>
      have hstep : operandStep depth (.operator op) = some (reading .operand depth) := by
        simp only [operandStep, hsign, Option.map_some]
      exact .inl (Stuck.cons (step_operand hcalled.place hstep)
        (ih .operand depth (.inr rfl)).operand)
  | power hts _ ih => exact ih place depth ⟨hcalled, hts⟩
  | inner _ ih =>
      exact .inl (Stuck.cons (step_operand hcalled.1.place rfl) (ih .expression (depth + 1) rfl))
  | closing hinner hrest =>
      obtain ⟨us, rfl, hderives⟩ := hinner.sound
      refine .inl (Stuck.cons (step_operand hcalled.1.place rfl) (Stuck.after
        (hderives.run .expression (depth + 1) rfl) (Stuck.here ?_ rfl)))
      exact blocks_closing hinner.leaves hrest depth
  | operand hts => exact .inr ⟨rfl, hcalled.1.blocks hcalled.2 hts depth⟩

/-! ## The machine and the parser -/

def start : State :=
  reading .expression 0

/-- The machine stops at the token of the error, and looks for what the error says. -/
theorem ofTokens_error {tokens : List Token} {e : Error} (hended : Expr.Ended tokens)
    (h : Expr.ofTokens tokens = .error e) :
    ∃ us t rest place depth, tokens = us ++ t :: rest ∧
      start.run us = some (reading place depth) ∧ (reading place depth).step t.kind = none ∧
      e = ⟨(reading place depth).expected, t.span⟩ := by
  obtain ⟨last, hlast, hkind⟩ := hended
  have hstuck : ∃ f, Stuck start tokens f ∧ e = ⟨f.expected, spanAt f.rest last⟩ := by
    rw [Expr.ofTokens_of_getLast? hlast hkind] at h
    have hexplains := Rule.explains_read .expression tokens
    cases hread : Rule.expression.read tokens with
    | error f =>
        rw [hread] at h hexplains
        cases h
        exact ⟨f, Fails.stuckAt hexplains .expression 0 rfl, rfl⟩
    | ok p =>
        obtain ⟨tree, rest⟩ := p
        rw [hread] at h hexplains
        by_cases hrest : headKind? rest = some .eof
        · simp only [if_pos hrest] at h
          cases h
        · simp only [if_neg hrest] at h
          cases h
          obtain ⟨us, hus, hderives⟩ := Reads.sound hexplains
          have hrun := hderives.run .expression 0 rfl
          refine ⟨⟨.operator, rest⟩, ?_, rfl⟩
          rw [hus]
          exact Stuck.after hrun (Stuck.here (blocks_end (Reads.leaves hexplains) hrest) rfl)
  obtain ⟨f, ⟨us, place, depth, hus, hrun, hblocks, hexpected⟩, rfl⟩ := hstuck
  cases hrest : f.rest with
  | nil =>
      rw [hus, hrest, List.append_nil] at hlast
      have hmem := List.mem_of_getLast? hlast
      cases run_eq_done_of_eof hmem hkind hrun
  | cons t rest =>
      refine ⟨us, t, rest, place, depth, by rw [hus, hrest], hrun, ?_, ?_⟩
      · exact hblocks t.kind (by rw [hrest]; rfl)
      · rw [← hexpected]
        rfl

theorem expected_ne_endOfInput (place : Place) (depth : Nat) :
    (State.reading place depth).expected ≠ .endOfInput := by
  cases place with
  | operator => cases depth <;> exact nofun
  | _ => exact nofun

theorem Expected.message_injective {a b : Expected} (h : a.message = b.message) : a = b := by
  revert h
  cases a <;> cases b <;> decide

theorem message_ne_endOfInput {ts : List Token} {d : Diagnostic} (hended : Expr.Ended ts)
    (h : Expr.parse ts = .error d) : d.message ≠ Expected.endOfInput.message := by
  obtain ⟨e, he, rfl⟩ := mapError_eq_error_iff.mp h
  obtain ⟨_, _, _, place, depth, -, -, -, rfl⟩ := ofTokens_error hended he
  intro hmessage
  exact expected_ne_endOfInput place depth (Expected.message_injective hmessage)

/-- The parser accepts what the machine reads to the end of the input. -/
theorem ofTokens_ok_iff {tokens : List Token} :
    (∃ tree, Expr.ofTokens tokens = .ok tree) ↔
      Expr.Ended tokens ∧ start.run tokens = some done := by
  constructor
  · rintro ⟨tree, h⟩
    obtain ⟨hended, rest, hread, hrest⟩ := Expr.ofTokens_eq_ok_iff.mp h
    have hreads := Rule.explains_read .expression tokens
    rw [hread] at hreads
    obtain ⟨us, rfl, hderives⟩ := Reads.sound hreads
    obtain ⟨span, rest, rfl⟩ := eq_cons_of_headKind? hrest
    have hrun : start.run us = some (reading .operator 0) := hderives.run .expression 0 rfl
    refine ⟨hended, ?_⟩
    rw [run_append_of_run hrun]
    exact run_done rest
  · rintro ⟨hended, hrun⟩
    cases h : Expr.ofTokens tokens with
    | ok tree => exact ⟨tree, rfl⟩
    | error e =>
        obtain ⟨us, t, rest, place, depth, rfl, hus, hstep, _⟩ := ofTokens_error hended h
        rw [run_eq_none_of_misfit hus hstep] at hrun
        cases hrun

/-! ## The first token that does not fit -/

def Place.finish : Place -> List Token
  | expression => [⟨.literal (.int 0), nowhere⟩]
  | operand => [⟨.literal (.int 0), nowhere⟩]
  | name => [⟨.identifier "x", nowhere⟩, ⟨.assign, nowhere⟩, ⟨.literal (.int 0), nowhere⟩]
  | equals => [⟨.assign, nowhere⟩, ⟨.literal (.int 0), nowhere⟩]
  | operator => []

def close (depth : Nat) : List Token :=
  List.replicate depth ⟨.rightParen, nowhere⟩ ++ [⟨.eof, nowhere⟩]

theorem run_finish (place : Place) (depth : Nat) :
    (reading place depth).run place.finish = some (reading .operator depth) := by
  cases place <;> rfl

theorem run_close (depth : Nat) : (reading .operator depth).run (close depth) = some done := by
  induction depth with
  | zero => rfl
  | succ depth ih => exact ih

/-- Every state can be completed. -/
theorem run_completion (place : Place) (depth : Nat) :
    (reading place depth).run (place.finish ++ close depth) = some done := by
  rw [run_append_of_run (run_finish place depth), run_close]

theorem ended_completion (ts : List Token) (place : Place) (depth : Nat) :
    Expr.Ended (ts ++ (place.finish ++ close depth)) := by
  refine ⟨⟨.eof, nowhere⟩, ?_, rfl⟩
  rw [close, ← List.append_assoc, ← List.append_assoc, List.getLast?_concat]

theorem parse_ok_iff {tokens : List Token} :
    (∃ tree, Expr.parse tokens = .ok tree) ↔
      Expr.Ended tokens ∧ start.run tokens = some done := by
  rw [← ofTokens_ok_iff]
  simp only [Expr.parse_eq_ok_iff]

/--
A syntax error is at the first token that does not fit: what stands before that
token can be completed, and nothing that begins with it and what stands before it
is accepted.
-/
theorem parse_error_first_misfit {tokens : List Token} {d : Diagnostic}
    (hended : Expr.Ended tokens) (h : Expr.parse tokens = .error d) :
    ∃ k t, tokens[k]? = some t ∧ d.kind = .invalidSyntax ∧ d.span = t.span ∧
      (∀ u ∈ tokens.take k, u.kind ≠ .eof) ∧
      (∃ more tree, Expr.parse (tokens.take k ++ more) = .ok tree) ∧
      ∀ more tree, Expr.parse (tokens.take (k + 1) ++ more) ≠ .ok tree := by
  obtain ⟨e, he, rfl⟩ := mapError_eq_error_iff.mp h
  obtain ⟨us, t, rest, place, depth, rfl, hrun, hstep, rfl⟩ := ofTokens_error hended he
  have htake : (us ++ t :: rest).take us.length = us := List.take_left
  have htakeSucc : (us ++ t :: rest).take (us.length + 1) = us ++ [t] := by
    rw [List.take_append, List.take_of_length_le (by omega)]
    simp
  refine ⟨us.length, t, by simp, rfl, rfl, ?_, ?_, ?_⟩
  · intro u hu hkind
    rw [htake] at hu
    cases run_eq_done_of_eof hu hkind hrun
  · rw [htake]
    refine ⟨place.finish ++ close depth, parse_ok_iff.mpr ⟨ended_completion us place depth, ?_⟩⟩
    rw [run_append_of_run hrun, run_completion]
  · intro more tree hparse
    rw [htakeSucc, List.append_assoc] at hparse
    have hdone := (parse_ok_iff.mp ⟨tree, hparse⟩).2
    rw [run_append_of_run hrun, List.singleton_append, run_cons, hstep] at hdone
    cases hdone

theorem parse_error_first_misfit_unclosed :
    (∃ more tree, Expr.parse
        ([⟨.leftParen, nowhere⟩, ⟨.literal (.int 1), nowhere⟩] ++ more) = .ok tree) ∧
      ∀ more tree, Expr.parse ([⟨.leftParen, nowhere⟩, ⟨.literal (.int 1), nowhere⟩,
        ⟨.eof, .point ⟨"", "(1"⟩ ⟨2, 0, 2⟩⟩] ++ more) ≠ .ok tree := by
  have hended : Expr.Ended [⟨.leftParen, nowhere⟩, ⟨.literal (.int 1), nowhere⟩,
      ⟨.eof, .point ⟨"", "(1"⟩ ⟨2, 0, 2⟩⟩] := ⟨_, rfl, rfl⟩
  have herror : Expr.ofTokens [⟨.leftParen, nowhere⟩, ⟨.literal (.int 1), nowhere⟩,
      ⟨.eof, .point ⟨"", "(1"⟩ ⟨2, 0, 2⟩⟩] =
      .error ⟨.closing, .point ⟨"", "(1"⟩ ⟨2, 0, 2⟩⟩ := by cbv
  obtain ⟨k, t, hk, _, hspan, _, hextends, hnone⟩ := parse_error_first_misfit hended
    (congrArg (Except.mapError Parse.Error.diagnostic) herror)
  rcases k with _ | _ | _ | k
  · cases hk
    exact absurd hspan (by decide)
  · cases hk
    exact absurd hspan (by decide)
  · exact ⟨hextends, hnone⟩
  · cases hk

end Parse

end Abacus
