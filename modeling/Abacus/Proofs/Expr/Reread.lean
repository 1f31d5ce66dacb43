import Abacus.Proofs.Expr.Order
import Abacus.Proofs.Parse.Kinds

/-!
# Reading a node again

The text that a stretch of tokens covers is scanned to those tokens, wherever it stands.
In a text without parentheses the span of a node covers just the tokens that the node is
derived from, so that the text of the span can be read alone, as a copy of the node.
-/

namespace Abacus

open Parse (SameKinds)

/-! ## Cutting a text at its tokens -/

namespace Scan

variable {s : Source} {p : Position} {cs : List Char} {as bs ts us : List Token} {t : Token}

theorem Scans.skip (h : Scans s p cs (us ++ t :: ts)) :
    ∃ before rest, cs = before ++ rest ∧ t.span.start = p.advanceAll before ∧
      Scans s t.span.start rest (t :: ts) := by
  generalize hall : us ++ t :: ts = all at h
  induction h generalizing us with
  | done p =>
      cases us with
      | nil =>
          cases hall
          exact ⟨[], [], rfl, rfl, .done p⟩
      | cons u us => simp at hall
  | @blank p c cs all hc next ih =>
      obtain ⟨before, rest, rfl, hstart, hscans⟩ := ih hall
      exact ⟨c :: before, rest, rfl, hstart, hscans⟩
  | @token p cs after kind grows all lexeme apart next ih =>
      cases us with
      | nil =>
          cases hall
          exact ⟨[], cs ++ after, rfl, rfl, .token lexeme apart next⟩
      | cons u us =>
          obtain ⟨before, rest, rfl, hstart, hscans⟩ := ih (List.cons.inj hall).2
          refine ⟨cs ++ before, rest, (List.append_assoc ..).symm, ?_, hscans⟩
          rw [Position.advanceAll_append, hstart]

theorem Scans.cut (h : Scans s p cs (us ++ t :: ts)) (ht : t.kind ≠ .eof) :
    ∃ body after, cs = body ++ after ∧ t.span.stop = p.advanceAll body ∧
      Scans s p body (us ++ [t, ⟨.eof, .point s t.span.stop⟩]) := by
  generalize hall : us ++ t :: ts = all at h
  induction h generalizing us with
  | done p =>
      cases us with
      | nil =>
          cases hall
          exact absurd rfl ht
      | cons u us => simp at hall
  | @blank p c cs all hc next ih =>
      obtain ⟨body, after, rfl, hstop, hscans⟩ := ih hall
      exact ⟨c :: body, after, rfl, hstop, .blank hc hscans⟩
  | @token p cs rest kind grows all lexeme apart next ih =>
      cases us with
      | nil =>
          cases hall
          exact ⟨cs, rest, rfl, rfl, lexeme.scans s p⟩
      | cons u us =>
          obtain ⟨rfl, hrest⟩ := List.cons.inj hall
          obtain ⟨body, after, rfl, hstop, hscans⟩ := ih hrest
          have hapart : Apart grows body := by
            have hempty : Apart grows (body ++ []) := apart.of_head nofun
            rwa [List.append_nil] at hempty
          refine ⟨cs ++ body, after, (List.append_assoc ..).symm, ?_, .token lexeme hapart hscans⟩
          rw [Position.advanceAll_append, hstop]

/-- A span that runs from the start of the first token to the stop of the last. -/
def Covers (ts : List Token) (span : Span) : Prop :=
  ∃ first last, ts.head? = some first ∧ ts.getLast? = some last ∧
    span = first.span.through last.span

/-- The text that some tokens cover is scanned to these tokens. -/
theorem Scans.stretch {span : Span} (h : Scans s .zero s.text.toList (as ++ us ++ bs))
    (hus : ∀ t ∈ us, t.kind ≠ .eof) (hspan : Covers us span) (hsource : span.source = s) :
    Scans s span.start span.text.toList (us ++ [⟨.eof, .point s span.stop⟩]) := by
  obtain ⟨first, last, hfirst, hlast, rfl⟩ := hspan
  obtain ⟨front, rfl⟩ := List.getLast?_eq_some_iff.mp hlast
  obtain ⟨back, hback⟩ := List.head?_eq_some_iff.mp hfirst
  have hbefore : Scans s .zero s.text.toList ((as ++ front) ++ last :: bs) := by simpa using h
  obtain ⟨body, after, hbody, hstop, hcut⟩ := hbefore.cut (hus last (by simp))
  have hbehind : Scans s .zero body
      (as ++ first :: (back ++ [⟨.eof, .point s last.span.stop⟩])) := by
    rw [← List.cons_append, ← hback]
    simpa using hcut
  obtain ⟨before, rest, rfl, hstart, hscans⟩ := hbehind.skip
  have htext : (first.span.through last.span).text = String.ofList rest := by
    have hremaining : s.remaining first.span.start = rest ++ after := by
      apply Source.At.remaining_eq
      refine ⟨before, ?_, hstart⟩
      rw [hbody, List.append_assoc]
    rw [Position.advanceAll_append, ← hstart] at hstop
    rw [← Source.text_advanceAll hremaining, ← hstop, ← hsource]
    rfl
  rw [htext, String.toList_ofList, hback]
  exact hscans

/-- The same text is scanned to tokens of the same kinds wherever it stands. -/
theorem Scans.sameKinds (h : Scans s p cs ts) (u : Source) :
    ∃ us, Scans u .zero cs us ∧ SameKinds ts us := by
  have hoffset : p.offset = Position.zero.offset + p.offset := (Nat.zero_add _).symm
  have hmoved := moved_tokens u s hoffset cs
  rw [h.tokens_eq] at hmoved
  generalize hresult : tokens u .zero cs = result at hmoved
  cases hmoved with
  | @ok us _ hmoved =>
      refine ⟨us, scans_of_tokens hresult, ?_⟩
      clear hresult h
      induction hmoved with
      | nil => rfl
      | cons hfirst _ ih => exact congrArg₂ List.cons hfirst.kind_eq.symm ih

/-! ## Texts without parentheses -/

theorem Lexeme.eq_of_leftParen {grows : Char -> Bool} (h : Lexeme cs .leftParen grows) :
    cs = ['('] := by
  generalize hkind : Token.Kind.leftParen = kind at h
  cases h with
  | numeral _ => cases hkind
  | word _ =>
      rcases ofWord_cases (String.ofList cs) with ⟨k, hword⟩ | ⟨hword, _⟩
      · cases hkind.trans hword
      · cases hkind.trans hword
  | symbol hs h =>
      unfold symbol? at hs
      split at hs <;> cases hs <;> cases h <;> cases hkind
      rfl
  | withEquals hs h =>
      unfold symbol? at hs
      split at hs <;> cases hs <;> cases h <;> cases hkind

theorem Located.ne_leftParen (h : Located s t) (hs : '(' ∉ s.text.toList) :
    t.kind ≠ .leftParen := by
  intro hkind
  obtain ⟨grows, hlexeme⟩ := h.lexical
  rw [hkind] at hlexeme
  have hparen : '(' ∈ t.span.text.toList := by simp [hlexeme.eq_of_leftParen]
  rw [Span.text, String.toList_ofList, h.proper.source_eq] at hparen
  exact hs (List.mem_of_mem_drop (List.mem_of_mem_take hparen))

end Scan

open Scan

namespace Parse

variable {ts ls rs : List Token} {tree left right : Expr}

theorem covers_binary {t : Token} {op : Operator} {mark : Span} (hleft : Covers ls left.span)
    (hright : Covers rs right.span) :
    Covers (ls ++ t :: rs) (Expr.binary op mark left right).span := by
  obtain ⟨first, last, hfirst, -, hspan⟩ := hleft
  obtain ⟨first', last', -, hlast', hspan'⟩ := hright
  refine ⟨first, last', ?_, ?_, ?_⟩
  · rw [List.head?_append, hfirst, Option.some_or]
  · rw [List.getLast?_append, List.getLast?_cons, hlast', Option.getD_some, Option.some_or]
  · rw [Expr.span, hspan, hspan']
    rfl

theorem covers_unary {t : Token} {sign : Sign} (hoperand : Covers ts tree.span) :
    Covers (t :: ts) (Expr.unary sign t.span tree).span := by
  obtain ⟨first, last, -, hlast, hspan⟩ := hoperand
  refine ⟨t, last, rfl, ?_, ?_⟩
  · rw [List.getLast?_cons, hlast, Option.getD_some]
  · rw [Expr.span, hspan]
    rfl

theorem covers_singleton (t : Token) : Covers [t] t.span :=
  ⟨t, t, rfl, rfl, rfl⟩

/--
Without parentheses the span of an operand covers all its tokens.

Parentheses are in no span themselves, and what they make an operand of can be an
assignment, whose span is that of the name alone.
-/
theorem Derives.covers {symbol : Symbol} (h : Derives symbol ts tree)
    (hsymbol : symbol ≠ .expression) (hparens : ∀ t ∈ ts, t.kind ≠ .leftParen) :
    Covers ts tree.span := by
  induction h with
  | assign _ _ => exact absurd rfl hsymbol
  | expression _ _ => exact absurd rfl hsymbol
  | sum _ ih => exact ih (by decide) hparens
  | addition _ _ _ ihleft ihright =>
      rw [List.forall_mem_append, List.forall_mem_cons] at hparens
      exact covers_binary (ihleft (by decide) hparens.1) (ihright (by decide) hparens.2.2)
  | product _ ih => exact ih (by decide) hparens
  | multiplication _ _ _ ihleft ihright =>
      rw [List.forall_mem_append, List.forall_mem_cons] at hparens
      exact covers_binary (ihleft (by decide) hparens.1) (ihright (by decide) hparens.2.2)
  | plus _ ih => exact covers_unary (ih (by decide) (List.forall_mem_cons.mp hparens).2)
  | minus _ ih => exact covers_unary (ih (by decide) (List.forall_mem_cons.mp hparens).2)
  | factor _ ih => exact ih (by decide) hparens
  | power _ ih => exact ih (by decide) hparens
  | exponentiation _ _ ihleft ihright =>
      rw [List.forall_mem_append, List.forall_mem_cons] at hparens
      exact covers_binary (ihleft (by decide) hparens.1) (ihright (by decide) hparens.2.2)
  | literal => exact covers_singleton _
  | access => exact covers_singleton _
  | paren _ _ => exact absurd rfl (hparens _ (List.mem_cons_self ..))

theorem Derives.exists_operand {symbol : Symbol} (h : Derives symbol ts tree)
    (htree : ∀ name mark value, tree ≠ .assign name mark value) :
    ∃ operand, operand ≠ Symbol.expression ∧ Derives operand ts tree := by
  by_cases hsymbol : symbol = .expression
  · subst hsymbol
    cases h with
    | assign _ => exact absurd rfl (htree _ _ _)
    | expression hsum => exact ⟨.sum, by decide, hsum⟩
  · exact ⟨symbol, hsymbol, h⟩

theorem Derives.expression_of {symbol : Symbol} (h : Derives symbol ts tree) :
    Derives .expression ts tree := by
  cases symbol with
  | expression => exact h
  | sum => exact .expression h
  | product => exact .expression (.sum h)
  | factor => exact .expression (.sum (.product h))
  | power => exact .expression (.sum (.product (.factor h)))
  | atom => exact .expression (.sum (.product (.factor (.power h))))

end Parse

namespace Expr

/--
In a text without parentheses the span of a node means the node: read alone, the text of
the span gives a copy of the node.  An assignment, whose span is that of its name, is left
out.  No closing parenthesis is parsed without one that opens.
-/
theorem parse_scan_span {s : Source} {tokens : List Token} {tree node : Expr}
    (hparens : '(' ∉ s.text.toList) (hscan : s.scan = .ok tokens)
    (hparse : Expr.parse tokens = .ok tree) (hnode : node ∈ tree.nodes)
    (hassign : ∀ name mark value, node ≠ .assign name mark value) (file : String) :
    ∃ tokens' copy, Source.scan ⟨file, node.span.text⟩ = .ok tokens' ∧
      Expr.parse tokens' = .ok copy ∧ copy.SameShape node := by
  obtain ⟨us, q, rfl, hlocated, hlaid, hderives⟩ := exists_derives hscan hparse
  obtain ⟨symbol, vs, hvs, hnode⟩ := hderives.hasStretch_of_mem hnode
  obtain ⟨operand, hoperand, hnode⟩ := hnode.exists_operand hassign
  have hends : ∀ t ∈ vs, t.kind ≠ .eof :=
    fun t ht => (hlocated t (hvs.mem ht)).lexical.kind_ne_eof
  have hcovers : Covers vs node.span :=
    hnode.covers hoperand fun t ht => (hlocated t (hvs.mem ht)).ne_leftParen hparens
  have hsource : node.span.source = s := (hnode.spread (hlaid.of_infix hvs)).span_proper.source_eq
  obtain ⟨as, bs, rfl⟩ := hvs
  have hscans := Source.scan_eq_ok_iff.mp hscan
  rw [List.append_assoc] at hscans
  obtain ⟨tokens', hscans', hkinds⟩ :=
    (hscans.stretch hends hcovers hsource).sameKinds ⟨file, node.span.text⟩
  have hplace : Expr.parse (vs ++ [⟨.eof, .point s node.span.stop⟩]) = .ok node :=
    parse_eq_ok_iff.mpr ((Parse.ofTokens_append_eof_iff hends rfl).mpr hnode.expression_of)
  have hreading := hkinds.sameReading hends
  rw [hplace] at hreading
  generalize hresult : Expr.parse tokens' = result at hreading
  cases hreading with
  | ok hshape => exact ⟨tokens', _, Source.scan_eq_ok_iff.mpr hscans', hresult, hshape⟩

/-- A stretch of the text `var x = y + z*-w`. -/
def assigned (start stop : Nat) : Span :=
  Source.stretch "var x = y + z*-w" start stop

def assignedTokens : List Token :=
  [⟨.keyword .var, assigned 0 3⟩, ⟨.identifier "x", assigned 4 5⟩, ⟨.assign, assigned 6 7⟩,
    ⟨.identifier "y", assigned 8 9⟩, ⟨.operator .add, assigned 10 11⟩,
    ⟨.identifier "z", assigned 12 13⟩, ⟨.operator .mul, assigned 13 14⟩,
    ⟨.operator .sub, assigned 14 15⟩, ⟨.identifier "w", assigned 15 16⟩, ⟨.eof, assigned 16 16⟩]

def factors : Expr :=
  binary .mul (assigned 13 14) (access "z" (assigned 12 13))
    (unary .minus (assigned 14 15) (access "w" (assigned 15 16)))

/-- The product is read from its own text, without what stands before it. -/
theorem parse_scan_span_factors :
    ∃ tokens copy, Source.scan ⟨"node", "z*-w"⟩ = .ok tokens ∧ Expr.parse tokens = .ok copy ∧
      copy.SameShape factors := by
  have hscan : Source.scan ⟨"text", "var x = y + z*-w"⟩ = .ok assignedTokens := by cbv
  have hparse : Expr.parse assignedTokens = .ok (assign "x" (assigned 4 5)
      (binary .add (assigned 10 11) (access "y" (assigned 8 9)) factors)) := by
    cbv
  have htext : factors.span.text = "z*-w" := by cbv
  rw [← htext]
  refine parse_scan_span ?_ hscan hparse ?_ (fun name mark value h => Expr.noConfusion h) "node"
  · simp
  · simp [nodes, factors]

end Expr

end Abacus
