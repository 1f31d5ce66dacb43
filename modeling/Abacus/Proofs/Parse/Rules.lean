import Abacus.Expr.Parse

/-!
# The rules of the parser as a relation

`Rule.read` is what a rule gives without the bound that its result carries.
`Reads` and `Fails` say once how a reading comes about, with one constructor for
each way through a rule; `Rule.explains_read` is the only place that looks into the
rules themselves.
-/

namespace Abacus

namespace Parse

abbrev Reading : Type :=
  Except Failure (Expr × List Token)

def Result.reading {bound : Nat} : Result bound -> Reading
  | .ok p => .ok (p.tree, p.rest)
  | .error f => .error f

def headKind? (ts : List Token) : Option Token.Kind :=
  ts.head?.map Token.kind

@[simp] theorem headKind?_cons (t : Token) (ts : List Token) :
    headKind? (t :: ts) = some t.kind :=
  rfl

@[simp] theorem headKind?_nil : headKind? [] = none :=
  rfl

theorem eq_cons_of_headKind? {ts : List Token} {kind : Token.Kind}
    (h : headKind? ts = some kind) : ∃ span rest, ts = ⟨kind, span⟩ :: rest := by
  cases ts with
  | nil => cases h
  | cons t rest =>
      cases h
      exact ⟨t.span, rest, rfl⟩

/-- The rules, each with what it is given besides the tokens. -/
inductive Rule where
  | expression
  | chain (level : Level)
  | more (level : Level) (left : Expr)
  | factor
  | atom

def Level.left : Level -> Rule
  | sum => .chain .product
  | product => .factor
  | power => .atom

def Level.right : Level -> Rule
  | sum => .chain .product
  | product => .factor
  | power => .factor

namespace Rule

def read (ts : List Token) : Rule -> Reading
  | expression => (Parse.expression ts).reading
  | chain level => (Parse.chain level ts).reading
  | more level left => (Parse.more level left ts).reading
  | factor => (Parse.factor ts).reading
  | atom => (Parse.atom ts).reading

theorem reading_leftOperand (level : Level) (ts : List Token) :
    (Parse.leftOperand level ts).reading = level.left.read ts := by
  cases level with
  | sum => rw [Parse.leftOperand]; rfl
  | product => rw [Parse.leftOperand]; rfl
  | power => rw [Parse.leftOperand]; rfl

theorem reading_rightOperand (level : Level) (ts : List Token) :
    (Parse.rightOperand level ts).reading = level.right.read ts := by
  cases level with
  | sum => rw [Parse.rightOperand]; rfl
  | product => rw [Parse.rightOperand]; rfl
  | power => rw [Parse.rightOperand]; rfl

/-! ## One equation for each rule -/

theorem read_assignment (s mark s' : Span) (name : String) (rest : List Token) :
    expression.read (⟨.keyword .var, s⟩ :: ⟨.identifier name, mark⟩ :: ⟨.assign, s'⟩ :: rest) =
      match expression.read rest with
      | .ok (value, after) => .ok (.assign name mark value, after)
      | .error f => .error f := by
  simp only [read]
  rw [Parse.expression]
  cases Parse.expression rest with
  | error f => rfl
  | ok p => rfl

theorem read_noEquals (s mark : Span) (name : String) {rest : List Token}
    (h : headKind? rest ≠ some .assign) :
    expression.read (⟨.keyword .var, s⟩ :: ⟨.identifier name, mark⟩ :: rest) =
      .error ⟨.assign, rest⟩ := by
  simp only [read]
  rw [Parse.expression]
  · rfl
  · intro span rest' hrest
    exact h (by rw [hrest]; rfl)

theorem read_noName (s : Span) {rest : List Token}
    (h : ∀ name, headKind? rest ≠ some (.identifier name)) :
    expression.read (⟨.keyword .var, s⟩ :: rest) = .error ⟨.identifier, rest⟩ := by
  simp only [read]
  rw [Parse.expression]
  · rfl
  · intro name mark rest' hrest
    exact h name (by rw [hrest]; rfl)

theorem read_sum {ts : List Token} (h : headKind? ts ≠ some (.keyword .var)) :
    expression.read ts =
      match (chain .sum).read ts with
      | .ok p => .ok p
      | .error f =>
          if f.rest.length = ts.length then .error ⟨.expression, ts⟩ else .error f := by
  simp only [read]
  rw [Parse.expression]
  · cases Parse.chain .sum ts with
    | ok p => rfl
    | error f =>
        by_cases hlen : f.rest.length = ts.length
        · simp [Result.reading, hlen]
        · simp [Result.reading, hlen]
  · intro span rest hts
    exact h (by rw [hts]; rfl)

theorem read_chain (level : Level) (ts : List Token) :
    (chain level).read ts =
      match level.left.read ts with
      | .ok (left, rest) => (more level left).read rest
      | .error f => .error f := by
  rw [← reading_leftOperand]
  simp only [read]
  rw [Parse.chain]
  cases Parse.leftOperand level ts with
  | error f => rfl
  | ok p =>
      simp only [Result.reading]
      cases Parse.more level p.tree p.rest with
      | error f => rfl
      | ok q => rfl

theorem read_more (level : Level) (left : Expr) {op : Operator} (mark : Span)
    (rest : List Token) (h : op.level = level) :
    (more level left).read (⟨.operator op, mark⟩ :: rest) =
      match level.right.read rest with
      | .ok (right, rest') => (more level (.binary op mark left right)).read rest'
      | .error f => .error f := by
  rw [← reading_rightOperand]
  simp only [read]
  rw [Parse.more]
  simp only [if_pos h]
  cases Parse.rightOperand level rest with
  | error f => rfl
  | ok p =>
      simp only [Result.reading]
      cases Parse.more level (.binary op mark left p.tree) p.rest with
      | error f => rfl
      | ok q => rfl

theorem read_noMore {level : Level} (left : Expr) {ts : List Token}
    (h : ∀ op, headKind? ts = some (.operator op) → op.level ≠ level) :
    (more level left).read ts = .ok (left, ts) := by
  simp only [read]
  rw [Parse.more.eq_def]
  split
  · next op mark rest =>
      rw [if_neg (h op rfl)]
      rfl
  · rfl

theorem read_sign {op : Operator} {sign : Sign} (mark : Span) (rest : List Token)
    (h : Sign.ofOperator? op = some sign) :
    factor.read (⟨.operator op, mark⟩ :: rest) =
      match factor.read rest with
      | .ok (operand, after) => .ok (.unary sign mark operand, after)
      | .error f => .error f := by
  simp only [read]
  rw [Parse.factor]
  simp only [h]
  cases Parse.factor rest with
  | error f => rfl
  | ok p => rfl

theorem read_noSign {ts : List Token}
    (h : ∀ op, headKind? ts = some (.operator op) → Sign.ofOperator? op = none) :
    factor.read ts = (chain .power).read ts := by
  simp only [read]
  rw [Parse.factor.eq_def]
  split
  · next op mark rest =>
      simp only [h op rfl]
  · rfl

theorem read_literal (value : Number) (mark : Span) (rest : List Token) :
    atom.read (⟨.literal value, mark⟩ :: rest) = .ok (.literal value mark, rest) := by
  simp only [read]
  rw [Parse.atom]
  rfl

theorem read_access (name : String) (mark : Span) (rest : List Token) :
    atom.read (⟨.identifier name, mark⟩ :: rest) = .ok (.access name mark, rest) := by
  simp only [read]
  rw [Parse.atom]
  rfl

theorem read_paren (s : Span) (rest : List Token) :
    atom.read (⟨.leftParen, s⟩ :: rest) =
      match expression.read rest with
      | .ok (tree, rest') =>
          if headKind? rest' = some .rightParen then .ok (tree, rest'.tail)
          else .error ⟨.closing, rest'⟩
      | .error f => .error f := by
  simp only [read]
  rw [Parse.atom]
  cases Parse.expression rest with
  | error f => rfl
  | ok p =>
      obtain ⟨tree, rest', shorter⟩ := p
      cases rest' with
      | nil => rfl
      | cons t after =>
          obtain ⟨kind, span⟩ := t
          cases kind <;> rfl

def beginsAtom : Token.Kind -> Bool
  | .literal _ => true
  | .identifier _ => true
  | .leftParen => true
  | _ => false

theorem read_noAtom {ts : List Token}
    (h : ∀ kind, headKind? ts = some kind → beginsAtom kind = false) :
    atom.read ts = .error ⟨.operand, ts⟩ := by
  simp only [read]
  rw [Parse.atom.eq_def]
  split
  · cases h _ rfl
  · cases h _ rfl
  · cases h _ rfl
  · rfl

end Rule

/-! ## How readings come about -/

/-- A rule reads a tree from some tokens and leaves the rest of them. -/
inductive Reads : Rule -> List Token -> Expr -> List Token -> Prop where
  | assignment {s mark s' : Span} {name : String} {ts rest : List Token} {value : Expr}
      (hvalue : Reads .expression ts value rest) :
      Reads .expression
        (⟨.keyword .var, s⟩ :: ⟨.identifier name, mark⟩ :: ⟨.assign, s'⟩ :: ts)
        (.assign name mark value) rest
  | sum {ts rest : List Token} {tree : Expr} (hvar : headKind? ts ≠ some (.keyword .var))
      (hsum : Reads (.chain .sum) ts tree rest) :
      Reads .expression ts tree rest
  | chain {level : Level} {ts us rest : List Token} {left tree : Expr}
      (hleft : Reads level.left ts left us) (hmore : Reads (.more level left) us tree rest) :
      Reads (.chain level) ts tree rest
  | more {op : Operator} {mark : Span} {ts us rest : List Token} {left right tree : Expr}
      (hright : Reads op.level.right ts right us)
      (hmore : Reads (.more op.level (.binary op mark left right)) us tree rest) :
      Reads (.more op.level left) (⟨.operator op, mark⟩ :: ts) tree rest
  | noMore {level : Level} {left : Expr} {ts : List Token}
      (hts : ∀ op, headKind? ts = some (.operator op) → op.level ≠ level) :
      Reads (.more level left) ts left ts
  | sign {op : Operator} {sign : Sign} {mark : Span} {ts rest : List Token} {operand : Expr}
      (hsign : Sign.ofOperator? op = some sign) (hoperand : Reads .factor ts operand rest) :
      Reads .factor (⟨.operator op, mark⟩ :: ts) (.unary sign mark operand) rest
  | power {ts rest : List Token} {tree : Expr}
      (hts : ∀ op, headKind? ts = some (.operator op) → Sign.ofOperator? op = none)
      (hpower : Reads (.chain .power) ts tree rest) :
      Reads .factor ts tree rest
  | literal {value : Number} {mark : Span} {rest : List Token} :
      Reads .atom (⟨.literal value, mark⟩ :: rest) (.literal value mark) rest
  | access {name : String} {mark : Span} {rest : List Token} :
      Reads .atom (⟨.identifier name, mark⟩ :: rest) (.access name mark) rest
  | paren {s s' : Span} {ts rest : List Token} {tree : Expr}
      (hinner : Reads .expression ts tree (⟨.rightParen, s'⟩ :: rest)) :
      Reads .atom (⟨.leftParen, s⟩ :: ts) tree rest

inductive Fails : Rule -> List Token -> Failure -> Prop where
  | value {s mark s' : Span} {name : String} {ts : List Token} {f : Failure}
      (hvalue : Fails .expression ts f) :
      Fails .expression
        (⟨.keyword .var, s⟩ :: ⟨.identifier name, mark⟩ :: ⟨.assign, s'⟩ :: ts) f
  | equals {s mark : Span} {name : String} {ts : List Token}
      (hts : headKind? ts ≠ some .assign) :
      Fails .expression (⟨.keyword .var, s⟩ :: ⟨.identifier name, mark⟩ :: ts) ⟨.assign, ts⟩
  | name {s : Span} {ts : List Token} (hts : ∀ name, headKind? ts ≠ some (.identifier name)) :
      Fails .expression (⟨.keyword .var, s⟩ :: ts) ⟨.identifier, ts⟩
  | sum {ts : List Token} {f : Failure} (hvar : headKind? ts ≠ some (.keyword .var))
      (hsum : Fails (.chain .sum) ts f) (hmoved : f.rest.length ≠ ts.length) :
      Fails .expression ts f
  | atOnce {ts : List Token} {f : Failure} (hvar : headKind? ts ≠ some (.keyword .var))
      (hsum : Fails (.chain .sum) ts f) (hstayed : f.rest.length = ts.length) :
      Fails .expression ts ⟨.expression, ts⟩
  | left {level : Level} {ts : List Token} {f : Failure} (hleft : Fails level.left ts f) :
      Fails (.chain level) ts f
  | chain {level : Level} {ts us : List Token} {left : Expr} {f : Failure}
      (hleft : Reads level.left ts left us) (hmore : Fails (.more level left) us f) :
      Fails (.chain level) ts f
  | right {op : Operator} {mark : Span} {ts : List Token} {left : Expr} {f : Failure}
      (hright : Fails op.level.right ts f) :
      Fails (.more op.level left) (⟨.operator op, mark⟩ :: ts) f
  | more {op : Operator} {mark : Span} {ts us : List Token} {left right : Expr} {f : Failure}
      (hright : Reads op.level.right ts right us)
      (hmore : Fails (.more op.level (.binary op mark left right)) us f) :
      Fails (.more op.level left) (⟨.operator op, mark⟩ :: ts) f
  | sign {op : Operator} {sign : Sign} {mark : Span} {ts : List Token} {f : Failure}
      (hsign : Sign.ofOperator? op = some sign) (hoperand : Fails .factor ts f) :
      Fails .factor (⟨.operator op, mark⟩ :: ts) f
  | power {ts : List Token} {f : Failure}
      (hts : ∀ op, headKind? ts = some (.operator op) → Sign.ofOperator? op = none)
      (hpower : Fails (.chain .power) ts f) :
      Fails .factor ts f
  | inner {s : Span} {ts : List Token} {f : Failure} (hinner : Fails .expression ts f) :
      Fails .atom (⟨.leftParen, s⟩ :: ts) f
  | closing {s : Span} {ts rest : List Token} {tree : Expr}
      (hinner : Reads .expression ts tree rest) (hrest : headKind? rest ≠ some .rightParen) :
      Fails .atom (⟨.leftParen, s⟩ :: ts) ⟨.closing, rest⟩
  | operand {ts : List Token}
      (hts : ∀ kind, headKind? ts = some kind → Rule.beginsAtom kind = false) :
      Fails .atom ts ⟨.operand, ts⟩

namespace Rule

/-- A reading comes about in one of the ways above. -/
def Explains (rule : Rule) (ts : List Token) : Reading -> Prop
  | .ok (tree, rest) => Reads rule ts tree rest
  | .error f => Fails rule ts f

theorem Explains.chain {level : Level} {ts us : List Token} {left : Expr} {r : Reading}
    (hleft : Reads level.left ts left us) (hmore : (more level left).Explains us r) :
    (Rule.chain level).Explains ts r := by
  cases r with
  | ok p => exact Reads.chain hleft hmore
  | error f => exact Fails.chain hleft hmore

theorem Explains.more {op : Operator} {mark : Span} {ts us : List Token} {left right : Expr}
    {r : Reading} (hright : Reads op.level.right ts right us)
    (hmore : (more op.level (.binary op mark left right)).Explains us r) :
    (Rule.more op.level left).Explains (⟨.operator op, mark⟩ :: ts) r := by
  cases r with
  | ok p => exact Reads.more hright hmore
  | error f => exact Fails.more hright hmore

theorem Explains.power {ts : List Token} {r : Reading}
    (hts : ∀ op, headKind? ts = some (.operator op) → Sign.ofOperator? op = none)
    (hpower : (Rule.chain .power).Explains ts r) : factor.Explains ts r := by
  cases r with
  | ok p => exact Reads.power hts hpower
  | error f => exact Fails.power hts hpower

theorem length_of_reading {bound : Nat} {r : Result bound} {tree : Expr} {rest : List Token}
    (h : r.reading = .ok (tree, rest)) : rest.length < bound := by
  cases r with
  | error f => cases h
  | ok p =>
      cases h
      exact p.shorter

/-- How many tokens a rule leaves at most when it is given `n`, plus one. -/
def bound (n : Nat) : Rule -> Nat
  | more _ _ => n + 1
  | _ => n

theorem length_of_read {rule : Rule} {ts rest : List Token} {tree : Expr}
    (h : rule.read ts = .ok (tree, rest)) : rest.length < rule.bound ts.length := by
  cases rule <;> exact length_of_reading h

def rank : Rule -> Nat
  | expression => 8
  | chain level => level.rank + 1
  | more _ _ => 0
  | factor => 3
  | atom => 0

/-- A rule calls other rules on less only: on fewer tokens, or lower down. -/
def size (rule : Rule) (ts : List Token) : Nat :=
  9 * ts.length + rule.rank

theorem rank_left_lt (level : Level) : level.left.rank < (chain level).rank := by
  cases level <;> decide

theorem rank_right_lt (level : Level) : level.right.rank < 9 := by
  cases level <;> decide

theorem bound_left (level : Level) (n : Nat) : level.left.bound n = n := by
  cases level <;> rfl

theorem bound_right (level : Level) (n : Nat) : level.right.bound n = n := by
  cases level <;> rfl

theorem explains_expression {ts : List Token}
    (ih : ∀ (rule : Rule) (us : List Token), rule.size us < expression.size ts →
      rule.Explains us (rule.read us)) :
    expression.Explains ts (expression.read ts) := by
  by_cases hvar : headKind? ts = some (.keyword .var)
  · obtain ⟨s, rest, rfl⟩ := eq_cons_of_headKind? hvar
    by_cases hname : ∃ name, headKind? rest = some (.identifier name)
    · obtain ⟨name, hname⟩ := hname
      obtain ⟨mark, rest, rfl⟩ := eq_cons_of_headKind? hname
      by_cases hassign : headKind? rest = some .assign
      · obtain ⟨s', rest, rfl⟩ := eq_cons_of_headKind? hassign
        have hvalue := ih .expression rest (by simp only [size, List.length_cons]; omega)
        rw [read_assignment]
        cases h : expression.read rest with
        | ok p =>
            rw [h] at hvalue
            exact Reads.assignment hvalue
        | error f =>
            rw [h] at hvalue
            exact Fails.value hvalue
      · rw [read_noEquals s mark name hassign]
        exact Fails.equals hassign
    · rw [read_noName s (not_exists.mp hname)]
      exact Fails.name (not_exists.mp hname)
  · have hsum := ih (.chain .sum) ts (by simp [size, rank])
    rw [read_sum hvar]
    cases h : (chain .sum).read ts with
    | ok p =>
        rw [h] at hsum
        exact Reads.sum hvar hsum
    | error f =>
        rw [h] at hsum
        by_cases hlen : f.rest.length = ts.length
        · simp only [if_pos hlen]
          exact Fails.atOnce hvar hsum hlen
        · simp only [if_neg hlen]
          exact Fails.sum hvar hsum hlen

theorem explains_chain {level : Level} {ts : List Token}
    (ih : ∀ (rule : Rule) (us : List Token), rule.size us < (chain level).size ts →
      rule.Explains us (rule.read us)) :
    (chain level).Explains ts ((chain level).read ts) := by
  have hleft := ih level.left ts (Nat.add_lt_add_left (rank_left_lt level) _)
  rw [read_chain]
  cases h : level.left.read ts with
  | error f =>
      rw [h] at hleft
      exact Fails.left hleft
  | ok p =>
      obtain ⟨left, rest⟩ := p
      have hlt := length_of_read h
      rw [bound_left] at hlt
      rw [h] at hleft
      exact .chain hleft (ih (.more level left) rest (by simp only [size, rank]; omega))

theorem explains_more {level : Level} {left : Expr} {ts : List Token}
    (ih : ∀ (rule : Rule) (us : List Token), rule.size us < (more level left).size ts →
      rule.Explains us (rule.read us)) :
    (more level left).Explains ts ((more level left).read ts) := by
  by_cases hop : ∃ op, headKind? ts = some (.operator op) ∧ op.level = level
  · obtain ⟨op, hop, rfl⟩ := hop
    obtain ⟨mark, rest, rfl⟩ := eq_cons_of_headKind? hop
    have hrank := rank_right_lt op.level
    have hright := ih op.level.right rest (by simp only [size, List.length_cons]; omega)
    rw [read_more op.level left mark rest rfl]
    cases h : op.level.right.read rest with
    | error f =>
        rw [h] at hright
        exact Fails.right hright
    | ok p =>
        obtain ⟨right, rest'⟩ := p
        have hlt := length_of_read h
        rw [bound_right] at hlt
        rw [h] at hright
        exact .more hright (ih _ rest' (by simp only [size, rank, List.length_cons]; omega))
  · have hnone : ∀ op, headKind? ts = some (.operator op) → op.level ≠ level :=
      fun op hhead hlevel => hop ⟨op, hhead, hlevel⟩
    rw [read_noMore left hnone]
    exact Reads.noMore hnone

theorem explains_factor {ts : List Token}
    (ih : ∀ (rule : Rule) (us : List Token), rule.size us < factor.size ts →
      rule.Explains us (rule.read us)) :
    factor.Explains ts (factor.read ts) := by
  by_cases hop : ∃ op sign, headKind? ts = some (.operator op) ∧ Sign.ofOperator? op = some sign
  · obtain ⟨op, sign, hop, hsign⟩ := hop
    obtain ⟨mark, rest, rfl⟩ := eq_cons_of_headKind? hop
    have hoperand := ih .factor rest (by simp only [size, List.length_cons]; omega)
    rw [read_sign mark rest hsign]
    cases h : factor.read rest with
    | error f =>
        rw [h] at hoperand
        exact Fails.sign hsign hoperand
    | ok p =>
        rw [h] at hoperand
        exact Reads.sign hsign hoperand
  · have hnone : ∀ op, headKind? ts = some (.operator op) → Sign.ofOperator? op = none := by
      intro op hhead
      cases hsign : Sign.ofOperator? op with
      | none => rfl
      | some sign => exact absurd ⟨op, sign, hhead, hsign⟩ hop
    rw [read_noSign hnone]
    exact .power hnone (ih (.chain .power) ts (by simp [size, rank]))

theorem explains_paren {s : Span} {rest : List Token}
    (ih : expression.Explains rest (expression.read rest)) :
    atom.Explains (⟨.leftParen, s⟩ :: rest) (atom.read (⟨.leftParen, s⟩ :: rest)) := by
  rw [read_paren]
  cases h : expression.read rest with
  | error f =>
      rw [h] at ih
      exact Fails.inner ih
  | ok p =>
      obtain ⟨tree, rest'⟩ := p
      rw [h] at ih
      by_cases hclose : headKind? rest' = some .rightParen
      · obtain ⟨s', after, rfl⟩ := eq_cons_of_headKind? hclose
        exact Reads.paren ih
      · simp only [if_neg hclose]
        exact Fails.closing ih hclose

theorem explains_atom {ts : List Token}
    (ih : ∀ (rule : Rule) (us : List Token), rule.size us < atom.size ts →
      rule.Explains us (rule.read us)) :
    atom.Explains ts (atom.read ts) := by
  by_cases hbegins : ∃ kind, headKind? ts = some kind ∧ beginsAtom kind = true
  · obtain ⟨kind, hkind, hbegins⟩ := hbegins
    obtain ⟨span, rest, rfl⟩ := eq_cons_of_headKind? hkind
    cases kind with
    | literal value =>
        rw [read_literal]
        exact Reads.literal
    | identifier name =>
        rw [read_access]
        exact Reads.access
    | leftParen =>
        have hsize : expression.size rest < atom.size (⟨.leftParen, span⟩ :: rest) := by
          simp only [size, rank, List.length_cons]
          omega
        exact explains_paren (ih .expression rest hsize)
    | _ => cases hbegins
  · have hnone : ∀ kind, headKind? ts = some kind → beginsAtom kind = false := by
      intro kind hkind
      exact Bool.eq_false_iff.mpr fun hbegin => hbegins ⟨kind, hkind, hbegin⟩
    rw [read_noAtom hnone]
    exact Fails.operand hnone

/-- What a rule gives comes about in one of the ways of `Reads` and `Fails`. -/
theorem explains_read (rule : Rule) (ts : List Token) : rule.Explains ts (rule.read ts) := by
  cases rule with
  | expression => exact explains_expression fun rule us _ => explains_read rule us
  | chain level => exact explains_chain fun rule us _ => explains_read rule us
  | more level left => exact explains_more fun rule us _ => explains_read rule us
  | factor => exact explains_factor fun rule us _ => explains_read rule us
  | atom => exact explains_atom fun rule us _ => explains_read rule us
termination_by rule.size ts

end Rule

end Parse

/-! ## The whole list of tokens -/

namespace Expr

open Parse

theorem ofTokens_of_getLast? {tokens : List Token} {last : Token}
    (h : tokens.getLast? = some last) (hlast : last.kind = .eof) :
    ofTokens tokens =
      match Rule.expression.read tokens with
      | .ok (tree, rest) =>
          if headKind? rest = some .eof then .ok tree else .error ⟨.operator, spanAt rest last⟩
      | .error f => .error ⟨f.expected, spanAt f.rest last⟩ := by
  unfold ofTokens
  rw [h]
  simp only [if_pos hlast, Rule.read]
  cases Parse.expression tokens with
  | error f => rfl
  | ok p =>
      obtain ⟨tree, rest, shorter⟩ := p
      cases rest with
      | nil => rfl
      | cons t rest =>
          obtain ⟨kind, span⟩ := t
          cases kind <;> rfl

def Ended (tokens : List Token) : Prop :=
  ∃ last, tokens.getLast? = some last ∧ last.kind = .eof

theorem ended_concat (tokens : List Token) (mark : Span) : Ended (tokens ++ [⟨.eof, mark⟩]) :=
  ⟨_, List.getLast?_concat, rfl⟩

theorem not_ok_of_not_ended {tokens : List Token} {tree : Expr} (h : ¬ Ended tokens) :
    ofTokens tokens ≠ .ok tree := by
  unfold ofTokens
  cases hlast : tokens.getLast? with
  | none => nofun
  | some last =>
      have hkind : ¬ last.kind = .eof := fun hkind => h ⟨last, hlast, hkind⟩
      simp only [if_neg hkind]
      nofun

theorem ofTokens_eq_ok_iff {tokens : List Token} {tree : Expr} :
    ofTokens tokens = .ok tree ↔
      Ended tokens ∧
        ∃ rest, Rule.expression.read tokens = .ok (tree, rest) ∧ headKind? rest = some .eof := by
  by_cases hended : Ended tokens
  · obtain ⟨last, hlast, hkind⟩ := hended
    rw [ofTokens_of_getLast? hlast hkind]
    cases hread : Rule.expression.read tokens with
    | error f => simp
    | ok p =>
        obtain ⟨found, rest⟩ := p
        by_cases hrest : headKind? rest = some .eof
        · simp only [if_pos hrest]
          constructor
          · rintro ⟨⟩
            exact ⟨⟨last, hlast, hkind⟩, rest, rfl, hrest⟩
          · rintro ⟨_, _, ⟨⟩, _⟩
            rfl
        · simp only [if_neg hrest]
          constructor
          · nofun
          · rintro ⟨_, _, ⟨⟩, hrest'⟩
            exact absurd hrest' hrest
  · constructor
    · intro h
      exact absurd h (not_ok_of_not_ended hended)
    · intro h
      exact absurd h.1 hended

end Expr

end Abacus
