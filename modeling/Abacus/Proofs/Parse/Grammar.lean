import Abacus.Proofs.Parse.Rules
import Abacus.Expr.Read

/-!
# The grammar of expressions

`Derives` is the grammar without its loops: sums and products are left recursive,
and the left operand of a power is an atom, so that every list of tokens has one
tree at most.  The parser accepts exactly what the grammar derives, with that tree.
-/

namespace Abacus

namespace Parse

inductive Symbol where
  | expression
  | sum
  | product
  | factor
  | power
  | atom
deriving DecidableEq

/-- A symbol of the grammar derives some tokens, with the tree of the derivation. -/
inductive Derives : Symbol -> List Token -> Expr -> Prop where
  | assign {s mark s' : Span} {name : String} {ts : List Token} {value : Expr}
      (hvalue : Derives .expression ts value) :
      Derives .expression
        (⟨.keyword .var, s⟩ :: ⟨.identifier name, mark⟩ :: ⟨.assign, s'⟩ :: ts)
        (.assign name mark value)
  | expression {ts : List Token} {tree : Expr} (h : Derives .sum ts tree) :
      Derives .expression ts tree
  | sum {ts : List Token} {tree : Expr} (h : Derives .product ts tree) : Derives .sum ts tree
  | addition {op : Operator} {mark : Span} {ls rs : List Token} {left right : Expr}
      (hop : op = .add ∨ op = .sub)
      (hleft : Derives .sum ls left) (hright : Derives .product rs right) :
      Derives .sum (ls ++ ⟨.operator op, mark⟩ :: rs) (.binary op mark left right)
  | product {ts : List Token} {tree : Expr} (h : Derives .factor ts tree) :
      Derives .product ts tree
  | multiplication {op : Operator} {mark : Span} {ls rs : List Token} {left right : Expr}
      (hop : op = .mul ∨ op = .div)
      (hleft : Derives .product ls left) (hright : Derives .factor rs right) :
      Derives .product (ls ++ ⟨.operator op, mark⟩ :: rs) (.binary op mark left right)
  | plus {mark : Span} {ts : List Token} {operand : Expr} (h : Derives .factor ts operand) :
      Derives .factor (⟨.operator .add, mark⟩ :: ts) (.unary .plus mark operand)
  | minus {mark : Span} {ts : List Token} {operand : Expr} (h : Derives .factor ts operand) :
      Derives .factor (⟨.operator .sub, mark⟩ :: ts) (.unary .minus mark operand)
  | factor {ts : List Token} {tree : Expr} (h : Derives .power ts tree) : Derives .factor ts tree
  | power {ts : List Token} {tree : Expr} (h : Derives .atom ts tree) : Derives .power ts tree
  | exponentiation {mark : Span} {ls rs : List Token} {left right : Expr}
      (hleft : Derives .atom ls left) (hright : Derives .factor rs right) :
      Derives .power (ls ++ ⟨.operator .pow, mark⟩ :: rs) (.binary .pow mark left right)
  | literal {value : Number} {mark : Span} :
      Derives .atom [⟨.literal value, mark⟩] (.literal value mark)
  | access {name : String} {mark : Span} :
      Derives .atom [⟨.identifier name, mark⟩] (.access name mark)
  | paren {s s' : Span} {ts : List Token} {tree : Expr} (h : Derives .expression ts tree) :
      Derives .atom (⟨.leftParen, s⟩ :: ts ++ [⟨.rightParen, s'⟩]) tree

/-! ## Where a rule stops -/

/-- No operator that binds as strongly as `rank` or more strongly stands first. -/
def Stops (rank : Nat) (ts : List Token) : Prop :=
  ∀ op, headKind? ts = some (.operator op) → rank < op.level.rank

theorem Stops.mono {m n : Nat} {ts : List Token} (h : Stops n ts) (hmn : m ≤ n) : Stops m ts := by
  intro op hop
  exact Nat.lt_of_le_of_lt hmn (h op hop)

theorem Stops.ne_operator {ts : List Token} (h : Stops Level.sum.rank ts) (op : Operator) :
    headKind? ts ≠ some (.operator op) := by
  intro hop
  have hlt := h op hop
  revert hlt
  cases op <;> decide

def Level.below : Level -> Nat
  | sum => product.rank
  | product => power.rank
  | power => 0

theorem stops_zero (ts : List Token) : Stops 0 ts := by
  intro op _
  cases op <;> decide

def Rule.Leaves (rule : Rule) (ts rest : List Token) : Prop :=
  match rule with
  | expression => Stops Level.sum.rank rest
  | chain level => Stops level.rank rest
  | more level _ => Stops level.below ts → Stops level.rank rest
  | factor => Stops Level.power.rank rest
  | atom => True

theorem Level.stops_left {level : Level} {ts rest : List Token}
    (h : level.left.Leaves ts rest) : Stops level.below rest := by
  cases level with
  | sum => exact h
  | product => exact h
  | power => exact stops_zero rest

theorem Level.stops_right {level : Level} {ts rest : List Token}
    (h : level.right.Leaves ts rest) : Stops level.below rest := by
  cases level with
  | sum => exact h
  | product => exact h
  | power => exact stops_zero rest

theorem Level.rank_lt_of_ne {level other : Level} (h : level.below < other.rank)
    (hne : other ≠ level) : level.rank < other.rank := by
  revert h hne
  cases level <;> cases other <;> decide

/-- The rules are greedy: none leaves an operator that it could have taken. -/
theorem Reads.leaves {rule : Rule} {ts rest : List Token} {tree : Expr}
    (h : Reads rule ts tree rest) : rule.Leaves ts rest := by
  induction h with
  | assignment _ ih => exact ih
  | sum _ _ ih => exact ih
  | chain _ _ ihleft ihmore => exact ihmore (Level.stops_left ihleft)
  | more _ _ ihright ihmore => exact fun _ => ihmore (Level.stops_right ihright)
  | noMore hts =>
      intro hbelow op hop
      exact Level.rank_lt_of_ne (hbelow op hop) (hts op hop)
  | sign _ _ ih => exact ih
  | power _ _ ih => exact ih
  | literal => trivial
  | access => trivial
  | paren _ _ => trivial

theorem Reads.eq_of_stops {level : Level} {left tree : Expr} {ts rest : List Token}
    (h : Reads (.more level left) ts tree rest) (hstops : Stops level.rank ts) :
    tree = left ∧ rest = ts := by
  cases h with
  | more _ _ => exact absurd (hstops _ rfl) (Nat.lt_irrefl _)
  | noMore _ => exact ⟨rfl, rfl⟩

/-! ## What the rules read is derived -/

def Level.symbol : Level -> Symbol
  | sum => .sum
  | product => .product
  | power => .power

def Level.base : Level -> Symbol
  | sum => .sum
  | product => .product
  | power => .atom

def DerivesUpTo (symbol : Symbol) (ts rest : List Token) (tree : Expr) : Prop :=
  ∃ us, ts = us ++ rest ∧ Derives symbol us tree

/-- What a rule reads is derived by its symbol; a loop carries on with what came before it. -/
def Rule.Sound (rule : Rule) (ts rest : List Token) (tree : Expr) : Prop :=
  match rule with
  | expression => DerivesUpTo .expression ts rest tree
  | chain level => DerivesUpTo level.symbol ts rest tree
  | more level left =>
      ∀ ls, Derives level.base ls left → DerivesUpTo level.symbol (ls ++ ts) rest tree
  | factor => DerivesUpTo .factor ts rest tree
  | atom => DerivesUpTo .atom ts rest tree

theorem Level.symbol_of_base {level : Level} {ts : List Token} {tree : Expr}
    (h : Derives level.base ts tree) : Derives level.symbol ts tree := by
  cases level with
  | sum => exact h
  | product => exact h
  | power => exact .power h

theorem Level.base_of_left {level : Level} {ts rest : List Token} {tree : Expr}
    (h : level.left.Sound ts rest tree) : DerivesUpTo level.base ts rest tree := by
  cases level with
  | sum =>
      obtain ⟨us, rfl, hus⟩ := h
      exact ⟨us, rfl, .sum hus⟩
  | product =>
      obtain ⟨us, rfl, hus⟩ := h
      exact ⟨us, rfl, .product hus⟩
  | power => exact h

/-- One turn of a loop; that of a power is its last, since its right operand is greedy. -/
theorem Reads.sound_more {op : Operator} {mark : Span} {ts us rest : List Token}
    {left right tree : Expr} (hright : Reads op.level.right ts right us)
    (hmore : Reads (.more op.level (.binary op mark left right)) us tree rest)
    (ihright : op.level.right.Sound ts us right)
    (ihmore : (Rule.more op.level (.binary op mark left right)).Sound us rest tree) :
    (Rule.more op.level left).Sound (⟨.operator op, mark⟩ :: ts) rest tree := by
  intro ls hls
  have hassoc : ∀ rs, ls ++ ⟨.operator op, mark⟩ :: (rs ++ us) =
      (ls ++ ⟨.operator op, mark⟩ :: rs) ++ us := by simp
  cases op with
  | add =>
      obtain ⟨rs, rfl, hrs⟩ := ihright
      rw [hassoc]
      exact ihmore _ (.addition (.inl rfl) hls hrs)
  | sub =>
      obtain ⟨rs, rfl, hrs⟩ := ihright
      rw [hassoc]
      exact ihmore _ (.addition (.inr rfl) hls hrs)
  | mul =>
      obtain ⟨rs, rfl, hrs⟩ := ihright
      rw [hassoc]
      exact ihmore _ (.multiplication (.inl rfl) hls hrs)
  | div =>
      obtain ⟨rs, rfl, hrs⟩ := ihright
      rw [hassoc]
      exact ihmore _ (.multiplication (.inr rfl) hls hrs)
  | pow =>
      obtain ⟨rs, rfl, hrs⟩ := ihright
      obtain ⟨rfl, rfl⟩ := hmore.eq_of_stops hright.leaves
      rw [hassoc]
      exact ⟨_, rfl, .exponentiation hls hrs⟩

theorem Reads.sound {rule : Rule} {ts rest : List Token} {tree : Expr}
    (h : Reads rule ts tree rest) : rule.Sound ts rest tree := by
  induction h with
  | assignment _ ih =>
      obtain ⟨us, rfl, hus⟩ := ih
      exact ⟨_ :: _ :: _ :: us, rfl, .assign hus⟩
  | sum _ _ ih =>
      obtain ⟨us, rfl, hus⟩ := ih
      exact ⟨us, rfl, .expression hus⟩
  | chain _ _ ihleft ihmore =>
      obtain ⟨ls, rfl, hls⟩ := Level.base_of_left ihleft
      exact ihmore ls hls
  | more hright hmore ihright ihmore => exact hright.sound_more hmore ihright ihmore
  | noMore _ =>
      intro ls hls
      exact ⟨ls, rfl, Level.symbol_of_base hls⟩
  | @sign op _ _ _ _ _ hsign _ ih =>
      obtain ⟨us, rfl, hus⟩ := ih
      cases op with
      | add =>
          cases hsign
          exact ⟨_ :: us, rfl, .plus hus⟩
      | sub =>
          cases hsign
          exact ⟨_ :: us, rfl, .minus hus⟩
      | _ => cases hsign
  | power _ _ ih =>
      obtain ⟨us, rfl, hus⟩ := ih
      exact ⟨us, rfl, .factor hus⟩
  | literal => exact ⟨[_], rfl, .literal⟩
  | access => exact ⟨[_], rfl, .access⟩
  | @paren s s' _ _ _ _ ih =>
      obtain ⟨us, rfl, hus⟩ := ih
      exact ⟨⟨.leftParen, s⟩ :: us ++ [⟨.rightParen, s'⟩], by simp, .paren hus⟩

/-! ## What is derived is read -/

def beginsOperand : Token.Kind -> Bool
  | .operator op => (Sign.ofOperator? op).isSome
  | kind => Rule.beginsAtom kind

def Symbol.begins (kind : Token.Kind) : Symbol -> Bool
  | expression => kind = .keyword .var || beginsOperand kind
  | sum => beginsOperand kind
  | product => beginsOperand kind
  | factor => beginsOperand kind
  | power => Rule.beginsAtom kind
  | atom => Rule.beginsAtom kind

theorem beginsOperand_of_beginsAtom {kind : Token.Kind} (h : Rule.beginsAtom kind = true) :
    beginsOperand kind = true := by
  cases kind with
  | operator op => cases h
  | _ => exact h

theorem Derives.begins {symbol : Symbol} {ts : List Token} {tree : Expr}
    (h : Derives symbol ts tree) : ∃ t us, ts = t :: us ∧ symbol.begins t.kind = true := by
  induction h with
  | assign _ _ => exact ⟨_, _, rfl, rfl⟩
  | expression _ ih =>
      obtain ⟨t, us, rfl, ht⟩ := ih
      exact ⟨t, us, rfl, Bool.or_eq_true_iff.mpr (.inr ht)⟩
  | sum _ ih => exact ih
  | addition _ _ _ ih _ =>
      obtain ⟨t, us, rfl, ht⟩ := ih
      exact ⟨t, _, rfl, ht⟩
  | product _ ih => exact ih
  | multiplication _ _ _ ih _ =>
      obtain ⟨t, us, rfl, ht⟩ := ih
      exact ⟨t, _, rfl, ht⟩
  | plus _ _ => exact ⟨_, _, rfl, rfl⟩
  | minus _ _ => exact ⟨_, _, rfl, rfl⟩
  | factor _ ih =>
      obtain ⟨t, us, rfl, ht⟩ := ih
      exact ⟨t, us, rfl, beginsOperand_of_beginsAtom ht⟩
  | power _ ih => exact ih
  | exponentiation _ _ ih _ =>
      obtain ⟨t, us, rfl, ht⟩ := ih
      exact ⟨t, _, rfl, ht⟩
  | literal => exact ⟨_, _, rfl, rfl⟩
  | access => exact ⟨_, _, rfl, rfl⟩
  | paren _ _ => exact ⟨_, _, rfl, rfl⟩

theorem Derives.head_ne_var {ts : List Token} {tree : Expr} (h : Derives .sum ts tree)
    (rest : List Token) : headKind? (ts ++ rest) ≠ some (.keyword .var) := by
  obtain ⟨t, us, rfl, ht⟩ := h.begins
  intro hvar
  rw [List.cons_append, headKind?_cons, Option.some.injEq] at hvar
  rw [hvar] at ht
  cases ht

theorem Derives.head_ne_sign {ts : List Token} {tree : Expr} (h : Derives .power ts tree)
    (rest : List Token) (op : Operator) (hop : headKind? (ts ++ rest) = some (.operator op)) :
    Sign.ofOperator? op = none := by
  obtain ⟨t, us, rfl, ht⟩ := h.begins
  rw [List.cons_append, headKind?_cons, Option.some.injEq] at hop
  rw [hop] at ht
  cases ht

/-- Reading what a symbol derives, in front of a rest that does not go on with it. -/
def Symbol.Complete (symbol : Symbol) (ts : List Token) (tree : Expr) : Prop :=
  match symbol with
  | expression => ∀ rest, Stops Level.sum.rank rest →
      Rule.expression.read (ts ++ rest) = .ok (tree, rest)
  | sum => ∀ rest, Stops Level.sum.below rest →
      (Rule.chain .sum).read (ts ++ rest) = (Rule.more .sum tree).read rest
  | product => ∀ rest, Stops Level.product.below rest →
      (Rule.chain .product).read (ts ++ rest) = (Rule.more .product tree).read rest
  | factor => ∀ rest, Stops Level.power.rank rest →
      Rule.factor.read (ts ++ rest) = .ok (tree, rest)
  | power => ∀ rest, Stops Level.power.rank rest →
      (Rule.chain .power).read (ts ++ rest) = .ok (tree, rest)
  | atom => ∀ rest, Rule.atom.read (ts ++ rest) = .ok (tree, rest)

theorem read_more_of_stops {level : Level} (left : Expr) {ts : List Token}
    (h : Stops level.rank ts) : (Rule.more level left).read ts = .ok (left, ts) := by
  apply Rule.read_noMore
  intro op hop hlevel
  have hlt := h op hop
  rw [hlevel] at hlt
  exact Nat.lt_irrefl _ hlt

theorem stops_operator {rank : Nat} {op : Operator} (h : rank < op.level.rank) (mark : Span)
    (ts : List Token) : Stops rank (⟨.operator op, mark⟩ :: ts) := by
  intro op' hop'
  cases hop'
  exact h

theorem stops_of_kind {kind : Token.Kind} (h : ∀ op, kind ≠ .operator op) (rank : Nat)
    (span : Span) (ts : List Token) : Stops rank (⟨kind, span⟩ :: ts) := by
  intro op hop
  cases hop
  exact absurd rfl (h op)

theorem read_chain_of_left {level : Level} {ts rest : List Token} {left : Expr}
    (h : level.left.read ts = .ok (left, rest)) :
    (Rule.chain level).read ts = (Rule.more level left).read rest := by
  rw [Rule.read_chain, h]

theorem read_chain_of_right {op : Operator} {mark : Span} {ls rs rest : List Token}
    {left right : Expr}
    (hleft : (Rule.chain op.level).read (ls ++ ⟨.operator op, mark⟩ :: (rs ++ rest)) =
      (Rule.more op.level left).read (⟨.operator op, mark⟩ :: (rs ++ rest)))
    (hright : op.level.right.read (rs ++ rest) = .ok (right, rest)) :
    (Rule.chain op.level).read ((ls ++ ⟨.operator op, mark⟩ :: rs) ++ rest) =
      (Rule.more op.level (.binary op mark left right)).read rest := by
  rw [List.append_assoc, List.cons_append, hleft, Rule.read_more _ _ _ _ rfl, hright]

theorem Symbol.Complete.product_ok {ts rest : List Token} {tree : Expr}
    (h : Symbol.product.Complete ts tree) (hrest : Stops Level.product.rank rest) :
    (Rule.chain .product).read (ts ++ rest) = .ok (tree, rest) := by
  rw [h rest (hrest.mono (by decide)), read_more_of_stops tree hrest]

theorem Derives.complete {symbol : Symbol} {ts : List Token} {tree : Expr}
    (h : Derives symbol ts tree) : symbol.Complete ts tree := by
  induction h with
  | assign _ ih =>
      intro rest hrest
      simp only [List.cons_append, Rule.read_assignment, ih rest hrest]
  | expression h ih =>
      intro rest hrest
      rw [Rule.read_sum (h.head_ne_var rest), ih rest (hrest.mono (by decide)),
        read_more_of_stops _ hrest]
  | sum _ ih =>
      intro rest hrest
      exact read_chain_of_left (ih.product_ok hrest)
  | @addition op mark ls rs left right hop _ _ ihleft ihright =>
      intro rest hrest
      have hlevel : op.level = .sum := by
        rcases hop with rfl | rfl <;> rfl
      have hstart := ihleft (⟨.operator op, mark⟩ :: (rs ++ rest))
        (stops_operator (by rw [hlevel]; decide) mark _)
      rw [← hlevel] at hstart ⊢
      exact read_chain_of_right hstart (by rw [hlevel]; exact ihright.product_ok hrest)
  | product _ ih =>
      intro rest hrest
      exact read_chain_of_left (ih rest hrest)
  | @multiplication op mark ls rs left right hop _ _ ihleft ihright =>
      intro rest hrest
      have hlevel : op.level = .product := by
        rcases hop with rfl | rfl <;> rfl
      have hstart := ihleft (⟨.operator op, mark⟩ :: (rs ++ rest))
        (stops_operator (by rw [hlevel]; decide) mark _)
      rw [← hlevel] at hstart ⊢
      exact read_chain_of_right hstart (by rw [hlevel]; exact ihright rest hrest)
  | plus _ ih =>
      intro rest hrest
      rw [List.cons_append, Rule.read_sign _ _ rfl, ih rest hrest]
  | minus _ ih =>
      intro rest hrest
      rw [List.cons_append, Rule.read_sign _ _ rfl, ih rest hrest]
  | factor h ih =>
      intro rest hrest
      rw [Rule.read_noSign (h.head_ne_sign rest), ih rest hrest]
  | power _ ih =>
      intro rest hrest
      rw [read_chain_of_left (ih rest), read_more_of_stops _ hrest]
  | @exponentiation mark ls rs left right _ _ ihleft ihright =>
      intro rest hrest
      have hstart : (Rule.chain .power).read (ls ++ ⟨.operator .pow, mark⟩ :: (rs ++ rest)) =
          (Rule.more .power left).read (⟨.operator .pow, mark⟩ :: (rs ++ rest)) :=
        read_chain_of_left (ihleft _)
      have hturn : (Rule.chain .power).read ((ls ++ ⟨.operator .pow, mark⟩ :: rs) ++ rest) =
          (Rule.more .power (.binary .pow mark left right)).read rest :=
        read_chain_of_right hstart (ihright rest hrest)
      rw [hturn, read_more_of_stops _ hrest]
  | literal =>
      intro rest
      exact Rule.read_literal _ _ rest
  | access =>
      intro rest
      exact Rule.read_access _ _ rest
  | @paren s s' ts tree _ ih =>
      intro rest
      have hinner := ih (⟨.rightParen, s'⟩ :: rest) (stops_of_kind (by intro op h; cases h) _ _ _)
      have happend : ⟨.leftParen, s⟩ :: ts ++ [⟨.rightParen, s'⟩] ++ rest =
          ⟨.leftParen, s⟩ :: (ts ++ ⟨.rightParen, s'⟩ :: rest) := by simp
      rw [happend, Rule.read_paren, hinner]
      rfl

/-! ## The parser and the grammar -/

theorem Derives.unique {ts : List Token} {a b : Expr} (ha : Derives .expression ts a)
    (hb : Derives .expression ts b) : a = b := by
  have hstops : Stops Level.sum.rank [] := fun op hop => by cases hop
  have hread := ha.complete [] hstops
  rw [hb.complete [] hstops] at hread
  cases hread
  rfl

/-- The power rule goes round its loop once at most, so that powers group to the right. -/
theorem Reads.power_cases {ts rest : List Token} {tree : Expr}
    (h : Reads (.chain .power) ts tree rest) :
    (∃ ls, ts = ls ++ rest ∧ Derives .atom ls tree) ∨
      ∃ ls mark rs left right, ts = ls ++ ⟨.operator .pow, mark⟩ :: rs ++ rest ∧
        Derives .atom ls left ∧ Derives .factor rs right ∧
        tree = .binary .pow mark left right := by
  obtain ⟨us, rfl, hus⟩ := h.sound
  cases hus with
  | power hatom => exact .inl ⟨us, rfl, hatom⟩
  | exponentiation hleft hright => exact .inr ⟨_, _, _, _, _, rfl, hleft, hright, rfl⟩

theorem eq_of_append_eof {ts us rest : List Token} {e t : Token}
    (hts : ∀ t ∈ ts, t.kind ≠ .eof) (ht : t.kind = .eof) (h : ts ++ [e] = us ++ t :: rest) :
    us = ts := by
  rcases List.append_eq_append_iff.mp h with ⟨as, rfl, has⟩ | ⟨cs, rfl, hcs⟩
  · cases as with
    | nil => simp
    | cons a as => simp at has
  · cases cs with
    | nil => simp
    | cons c cs =>
        have hc : t = c := (List.cons.inj hcs).1
        exact absurd ht (hts t (by simp [hc]))

theorem ofTokens_append_eof_iff {ts : List Token} {e : Token} {tree : Expr}
    (hts : ∀ t ∈ ts, t.kind ≠ .eof) (he : e.kind = .eof) :
    Expr.ofTokens (ts ++ [e]) = .ok tree ↔ Derives .expression ts tree := by
  rw [Expr.ofTokens_eq_ok_iff]
  constructor
  · rintro ⟨_, rest, hread, hrest⟩
    have hreads := Rule.explains_read .expression (ts ++ [e])
    rw [hread] at hreads
    obtain ⟨us, hus, hderives⟩ := Reads.sound hreads
    obtain ⟨span, rest, rfl⟩ := eq_cons_of_headKind? hrest
    rw [← eq_of_append_eof hts rfl hus]
    exact hderives
  · intro hderives
    have hstops : Stops Level.sum.rank [e] := by
      intro op hop
      rw [headKind?_cons, he] at hop
      cases hop
    refine ⟨⟨e, by simp, he⟩, [e], hderives.complete [e] hstops, ?_⟩
    rw [headKind?_cons, he]

end Parse

theorem Expr.parse_eq_ok_iff {tokens : List Token} {tree : Expr} :
    Expr.parse tokens = .ok tree ↔ Expr.ofTokens tokens = .ok tree :=
  mapError_eq_ok_iff

namespace Parse

/--
The parser accepts exactly what the grammar derives, and gives the tree of the
derivation.  A list of tokens has one tree at most, and powers group to the right.
-/
theorem parse_iff_derives {ts : List Token} {e : Token} (tree : Expr)
    (hts : ∀ t ∈ ts, t.kind ≠ .eof) (he : e.kind = .eof) :
    (Expr.parse (ts ++ [e]) = .ok tree ↔ Derives .expression ts tree) ∧
      (∀ us a b, Derives .expression us a → Derives .expression us b → a = b) ∧
      ∀ us rest power shorter, Parse.chain .power us = .ok ⟨power, rest, shorter⟩ →
        (∃ ls, us = ls ++ rest ∧ Derives .atom ls power) ∨
          ∃ ls mark rs left right, us = ls ++ ⟨.operator .pow, mark⟩ :: rs ++ rest ∧
            Derives .atom ls left ∧ Derives .factor rs right ∧
            power = .binary .pow mark left right := by
  refine ⟨?_, ?_, ?_⟩
  · rw [Expr.parse_eq_ok_iff]
    exact ofTokens_append_eof_iff hts he
  · intro us a b ha hb
    exact ha.unique hb
  · intro us rest power shorter h
    have hreads := Rule.explains_read (.chain .power) us
    have hread : (Rule.chain .power).read us = .ok (power, rest) := by
      simp only [Rule.read, h, Result.reading]
    rw [hread] at hreads
    exact Reads.power_cases hreads

theorem parse_iff_derives_tower :
    Expr.parse ([⟨.literal (.int 2), nowhere⟩, ⟨.operator .pow, nowhere⟩,
        ⟨.literal (.int 3), nowhere⟩, ⟨.operator .pow, nowhere⟩,
        ⟨.identifier "x", nowhere⟩] ++ [⟨.eof, nowhere⟩]) =
      .ok (.binary .pow nowhere (.literal (.int 2) nowhere)
        (.binary .pow nowhere (.literal (.int 3) nowhere) (.access "x" nowhere))) := by
  refine (parse_iff_derives _ (by simp) rfl).1.mpr ?_
  have hright : Derives .factor [⟨.literal (.int 3), nowhere⟩, ⟨.operator .pow, nowhere⟩,
      ⟨.identifier "x", nowhere⟩]
      (.binary .pow nowhere (.literal (.int 3) nowhere) (.access "x" nowhere)) :=
    .factor (.exponentiation .literal (.factor (.power .access)))
  exact .expression (.sum (.product (.factor (.exponentiation .literal hright))))

end Parse

end Abacus
