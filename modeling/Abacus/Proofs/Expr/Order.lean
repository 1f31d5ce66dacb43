import Abacus.Proofs.Expr.Spans

/-!
# The order of spans

Every node of a tree is derived from a stretch of the tokens.  The tokens stand in the
order of the source, and so do the mark of a node and the spans right below it, with or
without parentheses around them.
-/

namespace Abacus

open Scan

namespace Span

def Before (a b : Span) : Prop :=
  a.stop.offset <= b.start.offset

structure Within (inner outer : Span) : Prop where
  start_le : outer.start.offset <= inner.start.offset
  stop_le : inner.stop.offset <= outer.stop.offset

end Span

/-- The mark of a node and the spans of the nodes right below it stand in their order. -/
def Expr.InOrder : Expr -> Prop
  | literal _ _ => True
  | access _ _ => True
  | assign _ mark value => mark.Before value.span
  | unary sign mark operand =>
      mark.Before operand.span ∧ operand.span.Within (unary sign mark operand).span
  | binary op mark left right =>
      left.span.Before mark ∧ mark.Before right.span ∧
        left.span.Within (binary op mark left right).span ∧
        right.span.Within (binary op mark left right).span

namespace Parse

variable {s : Source} {ts us ls rs : List Token} {tree node left right : Expr}

/-! ## The tokens of a node -/

/-- A node is derived from a stretch of some tokens. -/
def HasStretch (ts : List Token) (node : Expr) : Prop :=
  ∃ symbol us, us <:+: ts ∧ Derives symbol us node

theorem HasStretch.mono (h : HasStretch us node) (hus : us <:+: ts) : HasStretch ts node := by
  obtain ⟨symbol, vs, hvs, hderives⟩ := h
  exact ⟨symbol, vs, hvs.trans hus, hderives⟩

theorem Derives.hasStretch {symbol : Symbol} (h : Derives symbol ts tree) : HasStretch ts tree :=
  ⟨symbol, ts, List.infix_refl ts, h⟩

theorem hasStretch_binary {symbol : Symbol} {op : Operator} {mark : Span} {t : Token}
    (h : Derives symbol (ls ++ t :: rs) (.binary op mark left right))
    (hleft : node ∈ left.nodes -> HasStretch ls node)
    (hright : node ∈ right.nodes -> HasStretch rs node)
    (hnode : node ∈ (Expr.binary op mark left right).nodes) :
    HasStretch (ls ++ t :: rs) node := by
  rcases List.mem_cons.mp hnode with rfl | hnode
  · exact h.hasStretch
  · rcases List.mem_append.mp hnode with hnode | hnode
    · exact (hleft hnode).mono (List.prefix_append ls _).isInfix
    · exact (hright hnode).mono ((List.suffix_cons t rs).trans (List.suffix_append ls _)).isInfix

theorem hasStretch_unary {symbol : Symbol} {sign : Sign} {mark : Span} {t : Token}
    (h : Derives symbol (t :: ts) (.unary sign mark tree))
    (hoperand : node ∈ tree.nodes -> HasStretch ts node)
    (hnode : node ∈ (Expr.unary sign mark tree).nodes) : HasStretch (t :: ts) node := by
  rcases List.mem_cons.mp hnode with rfl | hnode
  · exact h.hasStretch
  · exact (hoperand hnode).mono (List.suffix_cons t ts).isInfix

/-- Every node of a derived tree is itself derived from a stretch of the tokens. -/
theorem Derives.hasStretch_of_mem {symbol : Symbol} (h : Derives symbol ts tree)
    (hnode : node ∈ tree.nodes) : HasStretch ts node := by
  induction h with
  | @assign s mark s' name ts value hvalue ih =>
      rcases List.mem_cons.mp hnode with rfl | hnode
      · exact (Derives.assign hvalue).hasStretch
      · exact (ih hnode).mono (List.suffix_append [_, _, _] ts).isInfix
  | expression _ ih => exact ih hnode
  | sum _ ih => exact ih hnode
  | addition hop hleft hright ihleft ihright =>
      exact hasStretch_binary (.addition hop hleft hright) ihleft ihright hnode
  | product _ ih => exact ih hnode
  | multiplication hop hleft hright ihleft ihright =>
      exact hasStretch_binary (.multiplication hop hleft hright) ihleft ihright hnode
  | plus h ih => exact hasStretch_unary (.plus h) ih hnode
  | minus h ih => exact hasStretch_unary (.minus h) ih hnode
  | factor _ ih => exact ih hnode
  | power _ ih => exact ih hnode
  | exponentiation hleft hright ihleft ihright =>
      exact hasStretch_binary (.exponentiation hleft hright) ihleft ihright hnode
  | literal =>
      rw [List.mem_singleton.mp hnode]
      exact Derives.literal.hasStretch
  | access =>
      rw [List.mem_singleton.mp hnode]
      exact Derives.access.hasStretch
  | @paren s s' ts tree h ih => exact (ih hnode).mono (List.infix_append [_] ts [_])

/-! ## Tokens in their order -/

theorem Laid.of_infix (h : Laid s ts) (hus : us <:+: ts) : Laid s us where
  proper t ht := h.proper t (hus.mem ht)
  pairwise := h.pairwise.sublist hus.sublist

theorem Laid.inOrder_unary {t : Token} (sign : Sign) (h : Laid s (t :: ts))
    (hoperand : tree.Spread s ts) : (Expr.unary sign t.span tree).InOrder := by
  have hbefore : t.span.Before tree.span :=
    hoperand.stop_le_start (List.pairwise_cons.mp h.pairwise).1
  have hmark : t.span.start.offset < t.span.stop.offset :=
    (h.proper t (List.mem_cons_self ..)).start_lt
  refine ⟨hbefore, ?_, Nat.le_refl _⟩
  rw [Span.Before] at hbefore
  change t.span.start.offset <= tree.span.start.offset
  omega

theorem Laid.inOrder_binary {t : Token} (op : Operator) (h : Laid s (ls ++ t :: rs))
    (hleft : left.Spread s ls) (hright : right.Spread s rs) :
    (Expr.binary op t.span left right).InOrder := by
  have hpairs := (List.pairwise_append.mp h.pairwise).2.2
  have hbefore : left.span.Before t.span := by
    obtain ⟨u, hu, hstop⟩ := hleft.stop_mem
    rw [Span.Before, hstop]
    exact hpairs u hu t (List.mem_cons_self ..)
  have hafter : t.span.Before right.span :=
    hright.stop_le_start (List.pairwise_cons.mp h.back.pairwise).1
  have hmark : t.span.start.offset < t.span.stop.offset :=
    (h.back.proper t (List.mem_cons_self ..)).start_lt
  have hlt := hleft.span_proper.start_lt
  have hlt' := hright.span_proper.start_lt
  refine ⟨hbefore, hafter, ⟨Nat.le_refl _, ?_⟩, ⟨?_, Nat.le_refl _⟩⟩
  · rw [Span.Before] at hbefore hafter
    change left.span.stop.offset <= right.span.stop.offset
    omega
  · rw [Span.Before] at hbefore hafter
    change left.span.start.offset <= right.span.start.offset
    omega

theorem Derives.inOrder {symbol : Symbol} (h : Derives symbol ts tree) (hts : Laid s ts) :
    tree.InOrder := by
  induction h with
  | @assign _ mark _ name ts value hvalue _ =>
      have hpairs := (List.pairwise_cons.mp hts.tail.pairwise).1
      exact (hvalue.spread hts.tail.tail.tail).stop_le_start
        fun u hu => hpairs u (List.mem_cons_of_mem _ hu)
  | expression _ ih => exact ih hts
  | sum _ ih => exact ih hts
  | addition _ hleft hright _ _ =>
      exact hts.inOrder_binary _ (hleft.spread hts.front) (hright.spread hts.back.tail)
  | product _ ih => exact ih hts
  | multiplication _ hleft hright _ _ =>
      exact hts.inOrder_binary _ (hleft.spread hts.front) (hright.spread hts.back.tail)
  | plus h _ => exact hts.inOrder_unary .plus (h.spread hts.tail)
  | minus h _ => exact hts.inOrder_unary .minus (h.spread hts.tail)
  | factor _ ih => exact ih hts
  | power _ ih => exact ih hts
  | exponentiation hleft hright _ _ =>
      exact hts.inOrder_binary _ (hleft.spread hts.front) (hright.spread hts.back.tail)
  | literal => trivial
  | access => trivial
  | paren _ ih => exact ih hts.front.tail

end Parse

namespace Expr

/--
The spans of a tree that was parsed stand in the order of the source: no span is empty, an
operator stands between its operands, a sign or a name stands before what it belongs to,
and an operation covers its operands.
-/
theorem nodes_inOrder {s : Source} {tokens : List Token} {tree : Expr}
    (hscan : s.scan = .ok tokens) (hparse : Expr.parse tokens = .ok tree) :
    ∀ node ∈ tree.nodes, node.span.Proper s ∧ node.InOrder := by
  intro node hnode
  obtain ⟨us, q, -, -, hlaid, hderives⟩ := exists_derives hscan hparse
  obtain ⟨symbol, vs, hvs, hnode⟩ := hderives.hasStretch_of_mem hnode
  have hstretch := hlaid.of_infix hvs
  exact ⟨(hnode.spread hstretch).span_proper, hnode.inOrder hstretch⟩

/-- A stretch of the text `-(var x=y)*z`. -/
def signed (start stop : Nat) : Span :=
  Source.stretch "-(var x=y)*z" start stop

def signedTokens : List Token :=
  [⟨.operator .sub, signed 0 1⟩, ⟨.leftParen, signed 1 2⟩, ⟨.keyword .var, signed 2 5⟩,
    ⟨.identifier "x", signed 6 7⟩, ⟨.assign, signed 7 8⟩, ⟨.identifier "y", signed 8 9⟩,
    ⟨.rightParen, signed 9 10⟩, ⟨.operator .mul, signed 10 11⟩, ⟨.identifier "z", signed 11 12⟩,
    ⟨.eof, signed 12 12⟩]

def signedProduct : Expr :=
  binary .mul (signed 10 11)
    (unary .minus (signed 0 1) (assign "x" (signed 6 7) (access "y" (signed 8 9))))
    (access "z" (signed 11 12))

/-- The product covers its sign, and the name `x` stands before its value in the parentheses. -/
theorem nodes_inOrder_signed :
    signedProduct.span.Proper ⟨"text", "-(var x=y)*z"⟩ ∧ signedProduct.InOrder ∧
      (assign "x" (signed 6 7) (access "y" (signed 8 9))).InOrder := by
  have hscan : Source.scan ⟨"text", "-(var x=y)*z"⟩ = .ok signedTokens := by cbv
  have hparse : Expr.parse signedTokens = .ok signedProduct := by cbv
  have hnodes := nodes_inOrder hscan hparse
  obtain ⟨hproper, hroot⟩ := hnodes signedProduct (List.mem_cons_self ..)
  exact ⟨hproper, hroot, (hnodes _ (by simp [nodes, signedProduct])).2⟩

end Expr

end Abacus
