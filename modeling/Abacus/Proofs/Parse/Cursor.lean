import Mathlib
import Abacus.Expr.Read
import Abacus.Proofs.Parse.Rules

/-!
# The parser with a cursor

The rules are given the tokens that remain.  Here they look at the whole list through a
cursor instead, which does not move from the last token: a rule that read the end of the
input would stay there and could go on for ever.  No rule does.  Each one ends, leaves the
cursor where the end of the input is still to come, and reads what it reads from the
tokens that remain.
-/

namespace Abacus

namespace Parse

/-! ## Cursors -/

namespace Cursor

/-- The token under a cursor; behind the last token it is the last one. -/
def current? (tokens : List Token) (k : Nat) : Option Token :=
  tokens[min k (tokens.length - 1)]?

def advance (tokens : List Token) (k : Nat) : Nat :=
  if k + 1 < tokens.length then k + 1 else k

def Within (tokens : List Token) (k : Nat) : Prop :=
  ∀ t ∈ tokens.take k, t.kind ≠ .eof

variable {tokens : List Token} {k : Nat} {t : Token}

instance (tokens : List Token) (k : Nat) : Decidable (Within tokens k) :=
  inferInstanceAs (Decidable (∀ t ∈ tokens.take k, t.kind ≠ .eof))

theorem within_zero (tokens : List Token) : Within tokens 0 := by
  intro t ht
  cases ht

theorem Within.lt_length (h : Within tokens k) (hended : Expr.Ended tokens) :
    k < tokens.length := by
  obtain ⟨last, hlast, hkind⟩ := hended
  by_contra hge
  rw [Within, List.take_of_length_le (by omega)] at h
  exact h last (List.mem_of_getLast? hlast) hkind

theorem Within.exists_token (h : Within tokens k) (hended : Expr.Ended tokens) :
    ∃ t, tokens[k]? = some t :=
  ⟨_, List.getElem?_eq_getElem (h.lt_length hended)⟩

theorem current?_of_getElem? (ht : tokens[k]? = some t) : current? tokens k = some t := by
  have hlt := (List.getElem?_eq_some_iff.mp ht).1
  rw [current?, Nat.min_eq_left (by omega), ht]

theorem drop_of_getElem? (ht : tokens[k]? = some t) :
    tokens.drop k = t :: tokens.drop (k + 1) := by
  obtain ⟨hlt, rfl⟩ := List.getElem?_eq_some_iff.mp ht
  exact List.drop_eq_getElem_cons hlt

theorem headKind?_drop (ht : tokens[k]? = some t) :
    headKind? (tokens.drop k) = some t.kind := by
  rw [drop_of_getElem? ht, headKind?_cons]

theorem spanAt_drop (ht : tokens[k]? = some t) (last : Token) :
    spanAt (tokens.drop k) last = t.span := by
  rw [drop_of_getElem? ht, spanAt, List.headD_cons]

theorem eq_of_drop_eq {k' : Nat} {t' : Token} (ht : tokens[k]? = some t)
    (ht' : tokens[k']? = some t') (h : tokens.drop k = tokens.drop k') : k = k' := by
  have hlt := (List.getElem?_eq_some_iff.mp ht).1
  have hlt' := (List.getElem?_eq_some_iff.mp ht').1
  have hlength := congrArg List.length h
  rw [List.length_drop, List.length_drop] at hlength
  omega

theorem advance_of_ne_eof (hended : Expr.Ended tokens) (ht : tokens[k]? = some t)
    (hne : t.kind ≠ .eof) : advance tokens k = k + 1 := by
  obtain ⟨last, hlast, hkind⟩ := hended
  have hlt := (List.getElem?_eq_some_iff.mp ht).1
  refine if_pos (Nat.lt_of_le_of_ne hlt ?_)
  intro heq
  rw [List.getLast?_eq_getElem?, ← heq, Nat.succ_sub_one, ht] at hlast
  cases hlast
  exact hne hkind

theorem Within.succ (h : Within tokens k) (ht : tokens[k]? = some t) (hne : t.kind ≠ .eof) :
    Within tokens (k + 1) := by
  intro u hu
  rw [List.take_add_one, ht, Option.toList_some, List.mem_append, List.mem_singleton] at hu
  rcases hu with hu | rfl
  · exact h u hu
  · exact hne

end Cursor

/-! ## The rules with a cursor -/

open Cursor

inductive Stop where
  | accepted (tree : Expr) (cursor : Nat)
  | refused (e : Error) (cursor : Nat)

namespace Stop

def cursor : Stop -> Nat
  | accepted _ k => k
  | refused _ k => k

def andThen (next : Expr -> Nat -> Option Stop) : Stop -> Option Stop
  | accepted tree k => next tree k
  | refused e k => some (refused e k)

def refuse (expected : Expected) (t : Token) (k : Nat) : Option Stop :=
  some (refused ⟨expected, t.span⟩ k)

/-- A rule that was refused where it began, at `k`, has looked for something else. -/
def insteadAt (tokens : List Token) (k : Nat) (expected : Expected) : Stop -> Option Stop
  | accepted tree k' => some (accepted tree k')
  | refused e k' =>
      if k' = k then (current? tokens k).bind fun t => refuse expected t k
      else some (refused e k')

end Stop

def Level.operator? (level : Level) : Token.Kind -> Option Operator
  | .operator op => if op.level = level then some op else none
  | _ => none

def sign? : Token.Kind -> Option Sign
  | .operator op => Sign.ofOperator? op
  | _ => none

theorem operator_ne_eof (op : Operator) : Token.Kind.operator op ≠ .eof := by
  intro h
  cases h

theorem Level.operator?_eq_some_iff {level : Level} {kind : Token.Kind} {op : Operator} :
    level.operator? kind = some op ↔ kind = .operator op ∧ op.level = level := by
  cases kind with
  | operator other =>
      simp only [operator?, Option.ite_none_right_eq_some, Option.some.injEq,
        Token.Kind.operator.injEq]
      constructor
      · rintro ⟨hlevel, rfl⟩
        exact ⟨rfl, hlevel⟩
      · rintro ⟨rfl, hlevel⟩
        exact ⟨hlevel, rfl⟩
  | _ => exact ⟨nofun, nofun⟩

theorem sign?_eq_some_iff {kind : Token.Kind} {sign : Sign} :
    sign? kind = some sign ↔ ∃ op, kind = .operator op ∧ Sign.ofOperator? op = some sign := by
  cases kind with
  | operator op => simp [sign?]
  | _ => exact ⟨nofun, nofun⟩

namespace Rule

def assignmentWith (tokens : List Token) (call : Rule -> Nat -> Option Stop) (k : Nat) :
    Option Stop :=
  let k := advance tokens k
  (current? tokens k).bind fun name =>
    match name.kind with
    | .identifier x =>
        let k := advance tokens k
        (current? tokens k).bind fun equals =>
          if equals.kind = .assign then
            (call expression (advance tokens k)).bind
              (Stop.andThen fun value k => some (.accepted (.assign x name.span value) k))
          else Stop.refuse .assign equals k
    | _ => Stop.refuse .identifier name k

/-- A rule at a cursor; the rules that it needs are called by `call`. -/
def walkWith (tokens : List Token) (call : Rule -> Nat -> Option Stop) (k : Nat) :
    Rule -> Option Stop
  | expression =>
      (current? tokens k).bind fun t =>
        (if t.kind = .keyword .var then assignmentWith tokens call k
          else call (chain .sum) k).bind (Stop.insteadAt tokens k .expression)
  | chain level =>
      (call level.left k).bind (Stop.andThen fun left k => call (more level left) k)
  | more level left =>
      (current? tokens k).bind fun t =>
        match level.operator? t.kind with
        | some op =>
            (call level.right (advance tokens k)).bind
              (Stop.andThen fun right k => call (more level (.binary op t.span left right)) k)
        | none => some (.accepted left k)
  | factor =>
      (current? tokens k).bind fun t =>
        match sign? t.kind with
        | some sign =>
            (call factor (advance tokens k)).bind
              (Stop.andThen fun operand k => some (.accepted (.unary sign t.span operand) k))
        | none => call (chain .power) k
  | atom =>
      (current? tokens k).bind fun t =>
        match t.kind with
        | .literal value => some (.accepted (.literal value t.span) (advance tokens k))
        | .identifier name => some (.accepted (.access name t.span) (advance tokens k))
        | .leftParen =>
            (call expression (advance tokens k)).bind
              (Stop.andThen fun tree k =>
                (current? tokens k).bind fun closing =>
                  if closing.kind = .rightParen then
                    some (.accepted tree (advance tokens k))
                  else Stop.refuse .closing closing k)
        | _ => Stop.refuse .operand t k

/-- A rule at a cursor.  There is no result if the rules call each other `n` deep or deeper,
or if there is no token to look at. -/
def walk (tokens : List Token) : Nat -> Rule -> Nat -> Option Stop
  | 0, _, _ => none
  | n + 1, rule, k => walkWith tokens (walk tokens n) k rule

def least : Rule -> Nat
  | more _ _ => 0
  | _ => 1

theorem least_left (level : Level) : level.left.least = 1 := by
  cases level <;> rfl

theorem least_right (level : Level) : level.right.least = 1 := by
  cases level <;> rfl

end Rule

/-! ## The contract of a rule -/

/--
What a rule at the cursor `k` promises: it comes to what it reads from the tokens that
remain there, and it leaves the cursor at a token that is not behind the first end of the
input.
-/
inductive Keeps (tokens : List Token) (rule : Rule) (k : Nat) : Stop -> Prop where
  /-- The cursor has moved forward, behind the tokens of the tree. -/
  | accepted {tree : Expr} {k' : Nat} {t : Token}
      (hread : rule.read (tokens.drop k) = .ok (tree, tokens.drop k'))
      (hforward : k + rule.least ≤ k') (hwithin : Within tokens k')
      (ht : tokens[k']? = some t) : Keeps tokens rule k (.accepted tree k')
  /-- The cursor has not moved back, and the error is at the token under it. -/
  | refused {e : Error} {k' : Nat} {t : Token}
      (hread : rule.read (tokens.drop k) = .error ⟨e.expected, tokens.drop k'⟩)
      (hforward : k ≤ k') (hwithin : Within tokens k')
      (ht : tokens[k']? = some t) (hspan : e.span = t.span) : Keeps tokens rule k (.refused e k')

/-- The calls of rules that are less than `size` end and keep the contract. -/
def Trusted (tokens : List Token) (call : Rule -> Nat -> Option Stop) (size : Nat) : Prop :=
  ∀ (rule : Rule) (k : Nat), Within tokens k -> rule.size (tokens.drop k) < size ->
    ∃ stop, call rule k = some stop ∧ Keeps tokens rule k stop

variable {tokens : List Token} {call : Rule -> Nat -> Option Stop} {k : Nat}

/-- A rule that goes on as another one further on keeps the contract if that one does. -/
theorem Keeps.of_read_eq {rule other : Rule} {k' : Nat} {stop : Stop}
    (h : Keeps tokens other k' stop)
    (hread : rule.read (tokens.drop k) = other.read (tokens.drop k'))
    (hle : k ≤ k') (hleast : k + rule.least ≤ k' + other.least) : Keeps tokens rule k stop := by
  cases h with
  | accepted hother hforward hwithin ht =>
      exact .accepted (hread.trans hother) (Nat.le_trans hleast hforward) hwithin ht
  | refused hother hforward hwithin ht hspan =>
      exact .refused (hread.trans hother) (Nat.le_trans hle hforward) hwithin ht hspan

namespace Rule

theorem rank_lt (rule : Rule) : rule.rank < 9 := by
  cases rule with
  | chain level => cases level <;> decide
  | more level left => exact Nat.zero_lt_succ 8
  | _ => decide

theorem size_drop_lt (rule other : Rule) {k' : Nat} (hk : k < k') (hlt : k < tokens.length) :
    rule.size (tokens.drop k') < other.size (tokens.drop k) := by
  have hrank := rule.rank_lt
  simp only [size, List.length_drop]
  omega

/-! ## Every rule keeps the contract -/

theorem keeps_chain (hended : Expr.Ended tokens) (hk : Within tokens k) {level : Level}
    (hcall : Trusted tokens call ((chain level).size (tokens.drop k))) :
    ∃ stop, walkWith tokens call k (chain level) = some stop ∧
      Keeps tokens (chain level) k stop := by
  obtain ⟨first, hfirst, hkeeps⟩ :=
    hcall level.left k hk (Nat.add_lt_add_left (rank_left_lt level) _)
  simp only [walkWith, hfirst, Option.bind_some]
  cases hkeeps with
  | refused hread hforward hwithin ht hspan =>
      refine ⟨_, rfl, .refused ?_ hforward hwithin ht hspan⟩
      rw [read_chain, hread]
  | @accepted left k' t hread hforward hwithin ht =>
      rw [least_left] at hforward
      obtain ⟨stop, hstop, hmore⟩ :=
        hcall (more level left) k' hwithin (size_drop_lt _ _ hforward (hk.lt_length hended))
      refine ⟨stop, hstop, hmore.of_read_eq ?_ (Nat.le_of_lt hforward) hforward⟩
      rw [read_chain, hread]

/-- A pass of the loop reads an operator and an operand. -/
theorem keeps_more (hended : Expr.Ended tokens) (hk : Within tokens k) {level : Level}
    {left : Expr} (hcall : Trusted tokens call ((more level left).size (tokens.drop k))) :
    ∃ stop, walkWith tokens call k (more level left) = some stop ∧
      Keeps tokens (more level left) k stop := by
  have hlt := hk.lt_length hended
  obtain ⟨⟨kind, mark⟩, ht⟩ := hk.exists_token hended
  simp only [walkWith, current?_of_getElem? ht, Option.bind_some]
  cases hop : level.operator? kind with
  | none =>
      refine ⟨_, rfl, .accepted (read_noMore left ?_) (Nat.le_refl k) hk ht⟩
      intro op hhead hlevel
      rw [headKind?_drop ht, Option.some.injEq] at hhead
      cases hop.symm.trans (Level.operator?_eq_some_iff.mpr ⟨hhead, hlevel⟩)
  | some op =>
      obtain ⟨rfl, rfl⟩ := Level.operator?_eq_some_iff.mp hop
      have hne := operator_ne_eof op
      have hread := read_more op.level left mark (tokens.drop (k + 1)) rfl
      rw [← drop_of_getElem? ht] at hread
      obtain ⟨second, hsecond, hkeeps⟩ := hcall op.level.right (k + 1) (hk.succ ht hne)
        (size_drop_lt _ _ (Nat.lt_succ_self k) hlt)
      simp only [advance_of_ne_eof hended ht hne, hsecond, Option.bind_some]
      cases hkeeps with
      | refused hright hforward hwithin hat hspan =>
          refine ⟨_, rfl, .refused ?_ (Nat.le_of_succ_le hforward) hwithin hat hspan⟩
          rw [hread, hright]
      | @accepted right k' t hright hforward hwithin hat =>
          rw [least_right] at hforward
          obtain ⟨stop, hstop, hmore⟩ := hcall (more op.level (.binary op mark left right)) k'
            hwithin (size_drop_lt _ _ (by omega) hlt)
          refine ⟨stop, hstop, hmore.of_read_eq ?_ (by omega) (by simp only [least]; omega)⟩
          rw [hread, hright]

theorem keeps_factor (hended : Expr.Ended tokens) (hk : Within tokens k)
    (hcall : Trusted tokens call (factor.size (tokens.drop k))) :
    ∃ stop, walkWith tokens call k factor = some stop ∧ Keeps tokens factor k stop := by
  obtain ⟨⟨kind, mark⟩, ht⟩ := hk.exists_token hended
  simp only [walkWith, current?_of_getElem? ht, Option.bind_some]
  cases hsign : sign? kind with
  | none =>
      obtain ⟨stop, hstop, hkeeps⟩ := hcall (chain .power) k hk (by simp [size, rank])
      refine ⟨stop, hstop, hkeeps.of_read_eq (read_noSign ?_) (Nat.le_refl k) (Nat.le_refl _)⟩
      intro op hhead
      rw [headKind?_drop ht, Option.some.injEq] at hhead
      cases hhead
      exact hsign
  | some sign =>
      obtain ⟨op, rfl, hop⟩ := sign?_eq_some_iff.mp hsign
      have hne := operator_ne_eof op
      have hread := read_sign mark (tokens.drop (k + 1)) hop
      rw [← drop_of_getElem? ht] at hread
      obtain ⟨inner, hinner, hkeeps⟩ := hcall factor (k + 1) (hk.succ ht hne)
        (size_drop_lt _ _ (Nat.lt_succ_self k) (hk.lt_length hended))
      simp only [advance_of_ne_eof hended ht hne, hinner, Option.bind_some]
      cases hkeeps with
      | refused hoperand hforward hwithin hat hspan =>
          refine ⟨_, rfl, .refused ?_ (Nat.le_of_succ_le hforward) hwithin hat hspan⟩
          rw [hread, hoperand]
      | accepted hoperand hforward hwithin hat =>
          refine ⟨_, rfl, .accepted ?_ (Nat.le_of_succ_le hforward) hwithin hat⟩
          rw [hread, hoperand]

theorem keeps_paren (hended : Expr.Ended tokens) (hk : Within tokens k) {mark : Span}
    (ht : tokens[k]? = some ⟨.leftParen, mark⟩)
    (hcall : Trusted tokens call (atom.size (tokens.drop k))) :
    ∃ stop, walkWith tokens call k atom = some stop ∧ Keeps tokens atom k stop := by
  have hne : Token.Kind.leftParen ≠ .eof := nofun
  have hread := read_paren mark (tokens.drop (k + 1))
  rw [← drop_of_getElem? ht] at hread
  obtain ⟨inner, hinner, hkeeps⟩ := hcall expression (k + 1) (hk.succ ht hne)
    (size_drop_lt _ _ (Nat.lt_succ_self k) (hk.lt_length hended))
  simp only [walkWith, current?_of_getElem? ht, advance_of_ne_eof hended ht hne, hinner,
    Option.bind_some]
  cases hkeeps with
  | refused hinside hforward hwithin hat hspan =>
      refine ⟨_, rfl, .refused ?_ (Nat.le_of_succ_le hforward) hwithin hat hspan⟩
      rw [hread, hinside]
  | @accepted tree k' closing hinside hforward hwithin hat =>
      have hhead := headKind?_drop hat
      have hle : k + 1 ≤ k' := Nat.le_of_succ_le hforward
      simp only [Stop.andThen, current?_of_getElem? hat, Option.bind_some]
      by_cases hclosing : closing.kind = .rightParen
      · -- the cursor moves on from a parenthesis, as that is not the last token
        have hclosing' : closing.kind ≠ .eof := by rw [hclosing]; nofun
        have hwithin' := hwithin.succ hat hclosing'
        obtain ⟨behind, hbehind⟩ := hwithin'.exists_token hended
        rw [if_pos hclosing, advance_of_ne_eof hended hat hclosing']
        refine ⟨_, rfl, .accepted ?_ (Nat.le_succ_of_le hle) hwithin' hbehind⟩
        rw [hread, hinside]
        simp only [hhead, hclosing, if_true, List.tail_drop]
      · rw [if_neg hclosing]
        refine ⟨_, rfl, .refused ?_ (Nat.le_of_succ_le hle) hwithin hat rfl⟩
        rw [hread, hinside]
        simp only [hhead, Option.some.injEq, hclosing, if_false]

theorem keeps_atom (hended : Expr.Ended tokens) (hk : Within tokens k)
    (hcall : Trusted tokens call (atom.size (tokens.drop k))) :
    ∃ stop, walkWith tokens call k atom = some stop ∧ Keeps tokens atom k stop := by
  obtain ⟨⟨kind, mark⟩, ht⟩ := hk.exists_token hended
  have hdrop := drop_of_getElem? ht
  by_cases hbegins : beginsAtom kind
  · have hne : kind ≠ .eof := fun h => by cases h; cases hbegins
    obtain ⟨behind, hbehind⟩ := (hk.succ ht hne).exists_token hended
    have hadvance := advance_of_ne_eof hended ht hne
    cases kind with
    | literal value =>
        simp only [walkWith, current?_of_getElem? ht, Option.bind_some, hadvance]
        refine ⟨_, rfl, .accepted ?_ (Nat.le_refl (k + 1)) (hk.succ ht hne) hbehind⟩
        rw [hdrop, read_literal]
    | identifier name =>
        simp only [walkWith, current?_of_getElem? ht, Option.bind_some, hadvance]
        refine ⟨_, rfl, .accepted ?_ (Nat.le_refl (k + 1)) (hk.succ ht hne) hbehind⟩
        rw [hdrop, read_access]
    | leftParen => exact keeps_paren hended hk ht hcall
    | _ => cases hbegins
  · have hread : atom.read (tokens.drop k) = .error ⟨.operand, tokens.drop k⟩ := by
      refine read_noAtom fun other hhead => ?_
      rw [headKind?_drop ht, Option.some.injEq] at hhead
      rw [← hhead]
      exact Bool.eq_false_iff.mpr hbegins
    refine ⟨.refused ⟨.operand, mark⟩ k, ?_, .refused hread (Nat.le_refl k) hk ht rfl⟩
    simp only [walkWith, current?_of_getElem? ht, Option.bind_some]
    cases kind with
    | literal value => exact absurd rfl hbegins
    | identifier name => exact absurd rfl hbegins
    | leftParen => exact absurd rfl hbegins
    | _ => rfl

theorem keeps_value (hended : Expr.Ended tokens) (hk : Within tokens k) {s mark s' : Span}
    {name : String} (hvar : tokens[k]? = some ⟨.keyword .var, s⟩)
    (hname : tokens[k + 1]? = some ⟨.identifier name, mark⟩)
    (hassign : tokens[k + 2]? = some ⟨.assign, s'⟩)
    (hcall : Trusted tokens call (expression.size (tokens.drop k))) :
    ∃ stop, (call expression (k + 3)).bind
        (Stop.andThen fun value k => some (.accepted (.assign name mark value) k)) = some stop ∧
      Keeps tokens expression k stop ∧ k < stop.cursor := by
  have hwithin : Within tokens (k + 3) := ((hk.succ hvar nofun).succ hname nofun).succ hassign nofun
  have hread := read_assignment s mark s' name (tokens.drop (k + 3))
  rw [← drop_of_getElem? hassign, ← drop_of_getElem? hname, ← drop_of_getElem? hvar] at hread
  obtain ⟨value, hvalue, hkeeps⟩ := hcall expression (k + 3) hwithin
    (size_drop_lt _ _ (by omega) (hk.lt_length hended))
  rw [hvalue, Option.bind_some]
  cases hkeeps with
  | refused hinside hforward hwithin ht hspan =>
      have hlt : k < _ := Nat.lt_of_lt_of_le (by omega) hforward
      refine ⟨_, rfl, .refused ?_ (Nat.le_of_lt hlt) hwithin ht hspan, hlt⟩
      rw [hread, hinside]
  | @accepted tree k' t hinside hforward hwithin ht =>
      have hlt : k < k' := Nat.lt_of_lt_of_le (by omega) hforward
      refine ⟨_, rfl, .accepted ?_ hlt hwithin ht, hlt⟩
      rw [hread, hinside]

/-- An assignment has left `var` behind wherever it stops. -/
theorem keeps_assignment (hended : Expr.Ended tokens) (hk : Within tokens k) {s : Span}
    (hvar : tokens[k]? = some ⟨.keyword .var, s⟩)
    (hcall : Trusted tokens call (expression.size (tokens.drop k))) :
    ∃ stop, assignmentWith tokens call k = some stop ∧ Keeps tokens expression k stop ∧
      k < stop.cursor := by
  have hdrop := drop_of_getElem? hvar
  have hwithin := hk.succ hvar nofun
  obtain ⟨⟨kind, mark⟩, hname⟩ := hwithin.exists_token hended
  simp only [assignmentWith, advance_of_ne_eof hended hvar nofun, current?_of_getElem? hname,
    Option.bind_some]
  by_cases hkind : ∃ name, kind = .identifier name
  · obtain ⟨name, rfl⟩ := hkind
    rw [drop_of_getElem? hname] at hdrop
    have hwithin' := hwithin.succ hname nofun
    obtain ⟨⟨kind', s'⟩, hassign⟩ := hwithin'.exists_token hended
    simp only [advance_of_ne_eof hended hname nofun, current?_of_getElem? hassign,
      Option.bind_some]
    by_cases hkind' : kind' = .assign
    · subst hkind'
      rw [if_pos rfl, advance_of_ne_eof hended hassign nofun]
      exact keeps_value hended hk hvar hname hassign hcall
    · rw [if_neg hkind']
      refine ⟨_, rfl, .refused ?_ (Nat.le_add_right k 2) hwithin' hassign rfl,
        Nat.lt_add_of_pos_right Nat.two_pos⟩
      rw [hdrop, read_noEquals s mark name]
      rw [headKind?_drop hassign, ne_eq, Option.some.injEq]
      exact hkind'
  · refine ⟨.refused ⟨.identifier, mark⟩ (k + 1), ?_,
      .refused ?_ (Nat.le_succ k) hwithin hname rfl, Nat.lt_succ_self k⟩
    · cases kind with
      | identifier name => exact absurd ⟨name, rfl⟩ hkind
      | _ => rfl
    · rw [hdrop, read_noName s]
      intro name hhead
      rw [headKind?_drop hname, Option.some.injEq] at hhead
      exact hkind ⟨name, hhead⟩

theorem keeps_expression (hended : Expr.Ended tokens) (hk : Within tokens k)
    (hcall : Trusted tokens call (expression.size (tokens.drop k))) :
    ∃ stop, walkWith tokens call k expression = some stop ∧
      Keeps tokens expression k stop := by
  obtain ⟨⟨kind, mark⟩, ht⟩ := hk.exists_token hended
  simp only [walkWith, current?_of_getElem? ht, Option.bind_some]
  by_cases hvar : kind = .keyword .var
  · subst hvar
    obtain ⟨stop, hstop, hkeeps, hmoved⟩ := keeps_assignment hended hk ht hcall
    refine ⟨stop, ?_, hkeeps⟩
    rw [if_pos rfl, hstop, Option.bind_some]
    cases stop with
    | accepted tree k' => rfl
    | refused e k' => exact if_neg (Nat.ne_of_gt hmoved)
  · have hhead : headKind? (tokens.drop k) ≠ some (.keyword .var) := by
      rw [headKind?_drop ht, ne_eq, Option.some.injEq]
      exact hvar
    obtain ⟨sum, hsum, hkeeps⟩ := hcall (chain .sum) k hk (by simp [size, rank])
    rw [if_neg hvar, hsum, Option.bind_some]
    cases hkeeps with
    | accepted hread hforward hwithin hat =>
        refine ⟨_, rfl, .accepted ?_ hforward hwithin hat⟩
        rw [read_sum hhead, hread]
    | @refused e k' t hread hforward hwithin hat hspan =>
        have hlt := hwithin.lt_length hended
        by_cases hstayed : k' = k
        · subst hstayed
          refine ⟨.refused ⟨.expression, mark⟩ k', ?_, .refused ?_ hforward hk ht rfl⟩
          · simp only [Stop.insteadAt, if_true, current?_of_getElem? ht, Option.bind_some]
            rfl
          · rw [read_sum hhead, hread]
            exact if_pos rfl
        · refine ⟨_, if_neg hstayed, .refused ?_ hforward hwithin hat hspan⟩
          rw [read_sum hhead, hread]
          refine if_neg ?_
          simp only [List.length_drop]
          omega

/-- One call of a rule keeps the contract if the calls that it makes do. -/
theorem keeps_walkWith (hended : Expr.Ended tokens) (hk : Within tokens k) {rule : Rule}
    (hcall : Trusted tokens call (rule.size (tokens.drop k))) :
    ∃ stop, walkWith tokens call k rule = some stop ∧ Keeps tokens rule k stop := by
  cases rule with
  | expression => exact keeps_expression hended hk hcall
  | chain level => exact keeps_chain hended hk hcall
  | more level left => exact keeps_more hended hk hcall
  | factor => exact keeps_factor hended hk hcall
  | atom => exact keeps_atom hended hk hcall

/-- Every rule ends and keeps the contract. -/
theorem keeps_walk (hended : Expr.Ended tokens) (n : Nat) :
    Trusted tokens (walk tokens n) n := by
  -- on the depth: a rule that may call `n` deep is no less than `n`, and calls only what is less
  induction n with
  | zero =>
      intro rule k _ hsize
      exact absurd hsize (Nat.not_lt_zero _)
  | succ n ih =>
      intro rule k hk hsize
      refine keeps_walkWith hended hk ?_
      intro other k' hk' hsize'
      exact ih other k' hk' (Nat.lt_of_lt_of_le hsize' (Nat.le_of_lt_succ hsize))

end Rule

theorem Keeps.unique {rule : Rule} {a b : Stop} (ha : Keeps tokens rule k a)
    (hb : Keeps tokens rule k b) : a = b := by
  cases ha with
  | accepted hread _ _ ht =>
      cases hb with
      | accepted hread' _ _ ht' =>
          have hsame := hread.symm.trans hread'
          simp only [Except.ok.injEq, Prod.mk.injEq] at hsame
          rw [hsame.1, eq_of_drop_eq ht ht' hsame.2]
      | refused hread' => cases hread.symm.trans hread'
  | @refused e _ _ hread _ _ ht hspan =>
      cases hb with
      | accepted hread' => cases hread.symm.trans hread'
      | @refused e' _ _ hread' _ _ ht' hspan' =>
          have hsame := hread.symm.trans hread'
          simp only [Except.error.injEq, Failure.mk.injEq] at hsame
          obtain rfl := eq_of_drop_eq ht ht' hsame.2
          cases ht.symm.trans ht'
          have he : e = e' := by
            cases e
            cases e'
            simp_all
          rw [he]

/-! ## The whole list of tokens -/

namespace Cursor

def finish (tokens : List Token) : Stop -> Option (Except Error Expr)
  | .accepted tree k =>
      (current? tokens k).bind fun t =>
        some (if t.kind = .eof then .ok tree else .error ⟨.operator, t.span⟩)
  | .refused e _ => some (.error e)

/-- The parser with a cursor, whose rules call each other less than `n` deep. -/
def ofTokens (tokens : List Token) (n : Nat) : Option (Except Error Expr) :=
  match tokens.getLast? with
  | none => some (.error ⟨.endOfInput, nowhere⟩)
  | some last =>
      if last.kind = .eof then (Rule.walk tokens n .expression 0).bind (finish tokens)
      else some (.error ⟨.endOfInput, .point last.span.stopSource last.span.stop⟩)

/-- On every list of tokens the parser with a cursor ends, with what the parser gives. -/
theorem ofTokens_eq {n : Nat} (hn : Rule.expression.size tokens < n) :
    ofTokens tokens n = some (Expr.ofTokens tokens) := by
  cases hlast : tokens.getLast? with
  | none => simp only [ofTokens, Expr.ofTokens, hlast]
  | some last =>
      by_cases hkind : last.kind = .eof
      · obtain ⟨stop, hstop, hkeeps⟩ :=
          Rule.keeps_walk ⟨last, hlast, hkind⟩ n .expression 0 (within_zero tokens) hn
        rw [Expr.ofTokens_of_getLast? hlast hkind]
        simp only [ofTokens, hlast, if_pos hkind, hstop, Option.bind_some]
        cases hkeeps with
        | @accepted tree k t hread _ _ ht =>
            rw [List.drop_zero] at hread
            simp only [finish, current?_of_getElem? ht, Option.bind_some, hread,
              headKind?_drop ht, Option.some.injEq, spanAt_drop ht]
        | @refused e k t hread _ _ ht hspan =>
            rw [List.drop_zero] at hread
            simp only [finish, hread, spanAt_drop ht, ← hspan]
      · simp only [ofTokens, Expr.ofTokens, hlast, if_neg hkind]

end Cursor

theorem exists_pass (hended : Expr.Ended tokens) (hk : Within tokens k) {op : Operator}
    {mark : Span} {right : Expr} {rest : List Token} (ht : tokens[k]? = some ⟨.operator op, mark⟩)
    (hright : op.level.right.read (tokens.drop (k + 1)) = .ok (right, rest)) (left : Expr) :
    ∃ k', k + 2 ≤ k' ∧ Within tokens k' ∧ rest = tokens.drop k' ∧
      (Rule.more op.level left).read (tokens.drop k) =
        (Rule.more op.level (.binary op mark left right)).read (tokens.drop k') := by
  obtain ⟨stop, -, hkeeps⟩ :=
    Rule.keeps_walk hended _ op.level.right (k + 1)
      (hk.succ ht (operator_ne_eof op)) (Nat.lt_succ_self _)
  cases hkeeps with
  | refused hread => cases hright.symm.trans hread
  | @accepted tree k' t hread hforward hwithin _ =>
      rw [Rule.least_right] at hforward
      cases hright.symm.trans hread
      refine ⟨k', hforward, hwithin, rfl, ?_⟩
      rw [drop_of_getElem? ht, Rule.read_more op.level left mark _ rfl, hread]

/--
Where the last token is the end of the input, every rule ends from every cursor that is
not behind the first such end, and it keeps the contract; a pass of the loop over the
operators of a level reads two tokens or more.  So the parser with a cursor ends on every
list of tokens, with what the parser gives.
-/
theorem cursor_contract (tokens : List Token) :
    (Expr.Ended tokens ->
      (∀ (rule : Rule) (k : Nat), Within tokens k ->
        ∃ stop, (∀ n, rule.size (tokens.drop k) < n -> rule.walk tokens n k = some stop) ∧
          Keeps tokens rule k stop) ∧
      ∀ (k : Nat) (op : Operator) (mark : Span) (left right : Expr) (rest : List Token),
        Within tokens k -> tokens[k]? = some ⟨.operator op, mark⟩ ->
        op.level.right.read (tokens.drop (k + 1)) = .ok (right, rest) ->
        ∃ k', k + 2 ≤ k' ∧ Within tokens k' ∧ rest = tokens.drop k' ∧
          (Rule.more op.level left).read (tokens.drop k) =
            (Rule.more op.level (.binary op mark left right)).read (tokens.drop k')) ∧
    ∀ n, Rule.expression.size tokens < n ->
      (Cursor.ofTokens tokens n).map (Except.mapError Error.diagnostic) =
        some (Expr.parse tokens) := by
  refine ⟨fun hended => ⟨?_, ?_⟩, ?_⟩
  · intro rule k hk
    obtain ⟨stop, -, hkeeps⟩ := Rule.keeps_walk hended _ rule k hk (Nat.lt_succ_self _)
    refine ⟨stop, fun n hn => ?_, hkeeps⟩
    obtain ⟨other, hother, hkeeps'⟩ := Rule.keeps_walk hended n rule k hk hn
    rw [hother, hkeeps'.unique hkeeps]
  · intro k op mark left right rest hk ht hright
    exact exists_pass hended hk ht hright left
  · intro n hn
    rw [Cursor.ofTokens_eq hn]
    rfl

/-- `(x * y` with an end of the input that is not the last. -/
def openProduct : List Token :=
  [⟨.leftParen, nowhere⟩, ⟨.identifier "x", nowhere⟩, ⟨.operator .mul, nowhere⟩,
    ⟨.identifier "y", nowhere⟩, ⟨.eof, .point ⟨"text", "(x * y"⟩ ⟨6, 0, 6⟩⟩,
    ⟨.rightParen, nowhere⟩, ⟨.eof, nowhere⟩]

/-- The parenthesis is refused at the first end, and the loop inside has come there in one pass. -/
theorem cursor_contract_open_product :
    Keeps openProduct .atom 0 (.refused ⟨.closing, .point ⟨"text", "(x * y"⟩ ⟨6, 0, 6⟩⟩ 4) ∧
      (∃ k', 2 + 2 ≤ k' ∧ Within openProduct k') ∧
      (Cursor.ofTokens openProduct 72).map (Except.mapError Error.diagnostic) =
        some (Expr.parse openProduct) := by
  obtain ⟨hrules, hparse⟩ := cursor_contract openProduct
  obtain ⟨hwalk, hpass⟩ := hrules ⟨_, rfl, rfl⟩
  obtain ⟨stop, hstop, hkeeps⟩ := hwalk .atom 0 (within_zero openProduct)
  have hrefused : Rule.walk openProduct 64 .atom 0 =
      some (.refused ⟨.closing, .point ⟨"text", "(x * y"⟩ ⟨6, 0, 6⟩⟩ 4) := by rfl
  have hright : Operator.mul.level.right.read (openProduct.drop 3) =
      .ok (.access "y" nowhere, openProduct.drop 4) := by cbv
  obtain ⟨k', hk', hwithin, -⟩ := hpass 2 .mul nowhere (.access "x" nowhere) _ _
    (by decide) rfl hright
  refine ⟨?_, ⟨k', hk', hwithin⟩, hparse 72 (by decide)⟩
  cases (hstop 64 (by decide)).symm.trans hrefused
  exact hkeeps

end Parse

end Abacus
