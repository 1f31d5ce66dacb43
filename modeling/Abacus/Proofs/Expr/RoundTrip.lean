import Abacus.Expr.Format
import Abacus.Proofs.Expr.Shape
import Abacus.Proofs.Expr.Writable
import Abacus.Proofs.Run.Basic

/-!
# Written expressions read back

The text of a writable expression scans and parses to an expression of the same shape
with the same text.  Apart from names and literals the text is parentheses, operators
and blanks.
-/

namespace Abacus

open Scan

theorem Source.read_of_scans {s : Source} {us : List Token} {q : Position} {tree : Expr}
    (hscans : Scans s .zero s.text.toList (us ++ [⟨.eof, .point s q⟩]))
    (hderives : Parse.Derives .expression us tree) : s.read = .ok tree :=
  read_eq_ok_iff.mpr ⟨_, scan_eq_ok_iff.mpr hscans, (Expr.parse_of_scans_iff hscans).mpr hderives⟩

namespace Expr

theorem literalText_of_mark {value : Number} {mark mark' : Span}
    (h : mark'.text = literalText value mark) :
    literalText value mark' = literalText value mark := by
  unfold literalText at h ⊢
  split
  · rfl
  · next hfinite => rw [h, if_neg hfinite]

/-! ## Stretches of text -/

/-- A tree read again: the same shape and the same text. -/
structure Copies (copy e : Expr) : Prop where
  shape : SameShape copy e
  formatAs_eq : ∀ nested, copy.formatAs nested = e.formatAs nested

theorem Copies.assign {copy e : Expr} (h : Copies copy e) (name : String) (mark mark' : Span) :
    Copies (.assign name mark copy) (.assign name mark' e) where
  shape := .assign h.shape
  formatAs_eq _ := by simp only [formatAs, h.formatAs_eq]

theorem Copies.unary {copy e : Expr} (h : Copies copy e) (sign : Sign) (mark mark' : Span) :
    Copies (.unary sign mark copy) (.unary sign mark' e) where
  shape := .unary h.shape
  formatAs_eq _ := by simp only [formatAs, h.formatAs_eq]

theorem Copies.binary {copy copy' left right : Expr} (hleft : Copies copy left)
    (hright : Copies copy' right) (op : Operator) (mark mark' : Span) :
    Copies (.binary op mark copy copy') (.binary op mark' left right) where
  shape := .binary hleft.shape hright.shape
  formatAs_eq _ := by simp only [formatAs, hleft.formatAs_eq, hright.formatAs_eq]

/-- What can follow a name or a literal in the text of an expression. -/
def Closes (rest : List Char) : Prop :=
  ∀ c ∈ rest.head?, c = ' ' ∨ c = ')'

/--
A text that scans, in whatever source it stands, to tokens of which a symbol of the
grammar derives a copy of `e`.
-/
def Written (symbol : Parse.Symbol) (text : List Char) (e : Expr) : Prop :=
  ∀ (source : Source) (p : Position) (rest : List Char) (ts : List Token),
    source.remaining p = text ++ rest -> Closes rest ->
    Scans source (p.advanceAll text) rest ts ->
    ∃ us copy, Scans source p (text ++ rest) (us ++ ts) ∧
      Parse.Derives symbol us copy ∧ Copies copy e

theorem Closes.apart {grows : Char -> Bool} {rest : List Char} (h : Closes rest)
    (hblank : grows ' ' = false) (hparen : grows ')' = false) : Apart grows rest := by
  intro c hc
  rcases h c hc with rfl | rfl
  · exact hblank
  · exact hparen

theorem closes_blank (rest : List Char) : Closes (' ' :: rest) := by
  intro c hc
  cases hc
  exact .inl rfl

theorem closes_paren (rest : List Char) : Closes (')' :: rest) := by
  intro c hc
  cases hc
  exact .inr rfl

theorem goesOn_of_closes {numeral rest : List Char} (h : Closes rest) :
    Apart (goesOn numeral) rest :=
  h.apart rfl rfl

theorem Written.mono {symbol symbol' : Parse.Symbol} {text : List Char} {e : Expr}
    (h : Written symbol text e)
    (hsymbol : ∀ {us tree}, Parse.Derives symbol us tree -> Parse.Derives symbol' us tree) :
    Written symbol' text e := by
  intro source p rest ts hremaining hrest hscans
  obtain ⟨us, copy, hus, hderives, hcopies⟩ := h _ _ _ _ hremaining hrest hscans
  exact ⟨us, copy, hus, hsymbol hderives, hcopies⟩

theorem scans_symbol {source : Source} {p : Position} {c : Char} {kind : Token.Kind}
    {rest : List Char} {ts : List Token} (hs : symbol? c = some ⟨some kind, none⟩)
    (next : Scans source (p.advance c) rest ts) :
    Scans source p (c :: rest) (⟨kind, .within source p (p.advance c)⟩ :: ts) :=
  .token (.symbol hs rfl) (fun _ _ => rfl) next

theorem written_literal {value : Number} {mark : Span} (h : LiteralNumber value mark) :
    Written .atom (literalText value mark).toList (.literal value mark) := by
  intro source p rest ts hremaining hrest hscans
  have hlexeme := Lexeme.numeral (numeral_literalText h)
  refine ⟨_, _, .token hlexeme (goesOn_of_closes hrest) hscans, .literal, .literal, ?_⟩
  intro nested
  have htext := Source.text_advanceAll hremaining
  rw [String.ofList_toList] at htext
  exact literalText_of_mark htext

theorem lexeme_identifier {name : String} (h : IsIdentifier name) :
    Lexeme name.toList (.identifier name) isWordChar := by
  have hlexeme := Lexeme.word h.1
  rwa [String.ofList_toList, Token.Kind.ofWord, h.2] at hlexeme

theorem written_access {name : String} (h : IsIdentifier name) (mark : Span) :
    Written .atom name.toList (.access name mark) := by
  intro source p rest ts hremaining hrest hscans
  have hapart : Apart isWordChar rest := hrest.apart rfl rfl
  refine ⟨_, _, .token (lexeme_identifier h) hapart hscans, .access, .access, ?_⟩
  exact fun _ => rfl

theorem Written.paren {text : List Char} {e : Expr} (h : Written .expression text e) :
    Written .atom ('(' :: (text ++ [')'])) e := by
  intro source p rest ts hremaining hrest hscans
  rw [List.cons_append, List.append_assoc] at hremaining ⊢
  rw [Position.advanceAll_cons, Position.advanceAll_append] at hscans
  have hinner : source.remaining (p.advance '(') = text ++ ')' :: rest :=
    Source.remaining_advance hremaining
  obtain ⟨us, copy, hus, hderives, hcopies⟩ :=
    h _ _ _ _ hinner (closes_paren rest) (scans_symbol rfl hscans)
  rw [List.append_cons us] at hus
  exact ⟨Token.mk .leftParen _ :: us ++ [Token.mk .rightParen _], copy, scans_symbol rfl hus,
    .paren hderives, hcopies⟩

theorem Written.sign {text : List Char} {e : Expr} {c : Char} {op : Operator} {sign : Sign}
    (h : Written .factor text e) (mark : Span)
    (hs : symbol? c = some ⟨some (.operator op), none⟩)
    (derive : ∀ {mark ts tree}, Parse.Derives .factor ts tree ->
      Parse.Derives .factor (⟨.operator op, mark⟩ :: ts) (.unary sign mark tree)) :
    Written .factor (c :: text) (.unary sign mark e) := by
  intro source p rest ts hremaining hrest hscans
  obtain ⟨us, copy, hus, hderives, hcopies⟩ :=
    h _ _ _ _ (Source.remaining_advance hremaining) hrest hscans
  exact ⟨Token.mk (.operator op) _ :: us, _, scans_symbol hs hus, derive hderives,
    hcopies.unary sign _ _⟩

theorem Written.operator {lefts rights whole : Parse.Symbol} {ltext rtext : List Char}
    {left right : Expr} {c : Char} {op : Operator} (hleft : Written lefts ltext left)
    (hright : Written rights rtext right) (mark : Span)
    (hs : symbol? c = some ⟨some (.operator op), none⟩)
    (derive : ∀ {mark ls rs l r}, Parse.Derives lefts ls l -> Parse.Derives rights rs r ->
      Parse.Derives whole (ls ++ ⟨.operator op, mark⟩ :: rs) (.binary op mark l r)) :
    Written whole (ltext ++ ' ' :: c :: ' ' :: rtext) (.binary op mark left right) := by
  intro source p rest ts hremaining hrest hscans
  rw [List.append_assoc] at hremaining ⊢
  rw [Position.advanceAll_append] at hscans
  have hmiddle := Source.remaining_advanceAll hremaining
  have hend := Source.remaining_advance (Source.remaining_advance
    (Source.remaining_advance hmiddle))
  obtain ⟨rs, r, hrs, hr, hrcopies⟩ := hright _ _ _ _ hend hrest hscans
  obtain ⟨ls, l, hls, hl, hlcopies⟩ := hleft _ _ _ _ hremaining (closes_blank _)
    (.blank rfl (scans_symbol hs (.blank rfl hrs)))
  rw [← List.cons_append, ← List.append_assoc ls] at hls
  exact ⟨_, _, hls, derive hl hr, hlcopies.binary hrcopies op _ _⟩

theorem lexeme_var : Lexeme ['v', 'a', 'r'] (.keyword .var) isWordChar :=
  .word (.mk rfl (List.all_eq_true.mp rfl))

theorem Written.assign {name : String} {text : List Char} {e : Expr} (hname : IsIdentifier name)
    (h : Written .expression text e) (mark : Span) :
    Written .expression ("var ".toList ++ (name.toList ++ (" = ".toList ++ text)))
      (.assign name mark e) := by
  intro source p rest ts hremaining hrest hscans
  rw [List.append_assoc, List.append_assoc, List.append_assoc] at hremaining ⊢
  rw [Position.advanceAll_append, Position.advanceAll_append, Position.advanceAll_append] at hscans
  have hafterVar := Source.remaining_advanceAll hremaining
  have hafterName := Source.remaining_advanceAll hafterVar
  have hafterEquals := Source.remaining_advanceAll hafterName
  obtain ⟨us, copy, hus, hderives, hcopies⟩ := h _ _ _ _ hafterEquals hrest hscans
  have hequals := Scans.blank rfl
    (.token (.symbol (c := '=') rfl rfl) ((closes_blank _).apart rfl rfl) (.blank rfl hus))
  have hname := Scans.token (lexeme_identifier hname) ((closes_blank _).apart rfl rfl) hequals
  have hvar := Scans.token lexeme_var ((closes_blank _).apart rfl rfl) (.blank rfl hname)
  exact ⟨_ :: _ :: _ :: us, _, hvar, .assign hderives, hcopies.assign name _ _⟩

theorem derives_of_atom (symbol : Parse.Symbol) {ts : List Token} {tree : Expr}
    (h : Parse.Derives .atom ts tree) : Parse.Derives symbol ts tree := by
  have hfactor : Parse.Derives .factor ts tree := .factor (.power h)
  cases symbol with
  | expression => exact .expression (.sum (.product hfactor))
  | sum => exact .sum (.product hfactor)
  | product => exact .product hfactor
  | factor => exact hfactor
  | power => exact .power h
  | atom => exact h

theorem Written.lift {text : List Char} {e : Expr} (h : Written .atom text e)
    (symbol : Parse.Symbol) : Written symbol text e :=
  h.mono (derives_of_atom symbol)

theorem Written.unary {text : List Char} {e : Expr} (h : Written .atom text e) (sign : Sign)
    (mark : Span) : Written .expression (sign.symbol.toList ++ text) (.unary sign mark e) := by
  have hfactor : Written .factor (sign.symbol.toList ++ text) (.unary sign mark e) := by
    cases sign with
    | plus => exact (h.lift .factor).sign mark (c := '+') rfl .plus
    | minus => exact (h.lift .factor).sign mark (c := '-') rfl .minus
  exact hfactor.mono fun htree => .expression (.sum (.product htree))

theorem Written.binary {ltext rtext : List Char} {left right : Expr}
    (hleft : Written .atom ltext left) (hright : Written .atom rtext right) (op : Operator)
    (mark : Span) :
    Written .expression (ltext ++ ' ' :: (op.symbol.toList ++ ' ' :: rtext))
      (.binary op mark left right) := by
  have hfactor := hright.lift .factor
  have hproduct := hright.lift .product
  cases op with
  | add =>
      have hsum := (hleft.lift .sum).operator hproduct mark (c := '+') rfl
        (.addition (.inl rfl))
      exact hsum.mono .expression
  | sub =>
      have hsum := (hleft.lift .sum).operator hproduct mark (c := '-') rfl
        (.addition (.inr rfl))
      exact hsum.mono .expression
  | mul =>
      have hwhole := (hleft.lift .product).operator hfactor mark (c := '*') rfl
        (.multiplication (.inl rfl))
      exact hwhole.mono fun htree => .expression (.sum htree)
  | div =>
      have hwhole := (hleft.lift .product).operator hfactor mark (c := '/') rfl
        (.multiplication (.inr rfl))
      exact hwhole.mono fun htree => .expression (.sum htree)
  | pow =>
      have hpower := hleft.operator hfactor mark (c := '^') rfl .exponentiation
      exact hpower.mono fun htree => .expression (.sum (.product (.factor htree)))

/-! ## The text of an expression -/

/-- The text of an expression can be read where an expression or an operand can stand. -/
theorem written_formatAs {e : Expr} (h : e.Writable) :
    Written .expression (e.formatAs false).toList e ∧
      Written .atom (e.formatAs true).toList e := by
  induction e with
  | literal value mark =>
      have hatom := written_literal h
      exact ⟨hatom.lift .expression, hatom⟩
  | access name mark =>
      have hatom := written_access h mark
      exact ⟨hatom.lift .expression, hatom⟩
  | assign name mark value ih =>
      have hbare := (ih h.2).1.assign h.1 mark
      have htext : ((assign name mark value).formatAs false).toList =
          "var ".toList ++ (name.toList ++ (" = ".toList ++ (value.formatAs false).toList)) := by
        simp [formatAs]
      have hnested : ((assign name mark value).formatAs true).toList =
          '(' :: (((assign name mark value).formatAs false).toList ++ [')']) := by
        simp [formatAs]
      rw [← htext] at hbare
      exact ⟨hbare, hnested ▸ hbare.paren⟩
  | unary sign mark operand ih =>
      have hparen := ((ih h).2.unary sign mark).paren
      have htext : ∀ nested, ((unary sign mark operand).formatAs nested).toList =
          '(' :: (sign.symbol.toList ++ (operand.formatAs true).toList ++ [')']) := by
        simp [formatAs]
      rw [htext, htext]
      exact ⟨hparen.lift .expression, hparen⟩
  | binary op mark left right ihleft ihright =>
      have hparen := ((ihleft h.1).2.binary (ihright h.2).2 op mark).paren
      have htext : ∀ nested, ((binary op mark left right).formatAs nested).toList =
          '(' :: ((left.formatAs true).toList ++
            ' ' :: (op.symbol.toList ++ ' ' :: (right.formatAs true).toList) ++ [')']) := by
        simp [formatAs]
      rw [htext, htext]
      exact ⟨hparen.lift .expression, hparen⟩

/-- The text of a writable expression is read as a copy of it. -/
theorem exists_copy (file : String) {e : Expr} (h : e.Writable) :
    ∃ tokens copy, Source.scan ⟨file, e.format⟩ = .ok tokens ∧ Expr.parse tokens = .ok copy ∧
      Copies copy e := by
  have hremaining : Source.remaining ⟨file, e.format⟩ .zero = e.format.toList ++ [] := by
    rw [Source.remaining_zero, List.append_nil]
  obtain ⟨us, copy, hscans, hderives, hcopies⟩ :=
    (written_formatAs h).1 _ _ _ _ hremaining (fun _ hc => nomatch hc) (.done _)
  rw [List.append_nil] at hscans
  exact ⟨_, copy, Source.scan_eq_ok_iff.mpr hscans, (parse_of_scans_iff hscans).mpr hderives,
    hcopies⟩

/--
Printing loses nothing: the text of an expression scans and parses to an expression of
the same shape, whose text is the same again.
-/
theorem parse_scan_format (file : String) {e : Expr} (h : e.Writable) :
    ∃ tokens tree, Source.scan ⟨file, e.format⟩ = .ok tokens ∧ Expr.parse tokens = .ok tree ∧
      SameShape tree e ∧ tree.format = e.format := by
  obtain ⟨tokens, tree, hscan, hparse, hcopies⟩ := exists_copy file h
  exact ⟨tokens, tree, hscan, hparse, hcopies.shape, hcopies.formatAs_eq false⟩

/-- Where a literal of four hundred nines stands, which no finite double is near to. -/
def nines : Span :=
  .within ⟨"<nines>", String.ofList (List.replicate 400 '9')⟩ .zero ⟨400, 0, 400⟩

theorem numeral_nines :
    Numeral nines.text.toList (.float (Binary64.ofPattern false Binary64.infinity)) := by
  have htext : nines.text.toList = List.replicate 400 '9' := by
    rw [Span.text, String.toList_ofList, nines, Span.within_source, String.toList_ofList]
    exact List.take_of_length_le (Nat.le_of_eq List.length_replicate)
  have hdigits : ∀ c ∈ List.replicate 400 '9', c.isDigit := by
    intro c hc
    rw [List.eq_of_mem_replicate hc]
    rfl
  have hfits : ¬ Number.Fits (Nat.ofDigitChars 10 (List.replicate 400 '9') 0) := by
    decide +kernel
  have hnearest : (Decimal.ofPlaces (List.replicate 400 '9') []).nearest = Binary64.infinity := by
    decide +kernel
  have hnumeral := Numeral.whole (by decide) hdigits
  rw [wholeNumber_of_not_fits hfits, Decimal.toFloat, hnearest] at hnumeral
  rwa [htext]

/-- `(var x_1 = 99…9) ^ -5e-324`, an infinite base and the least exponent. -/
theorem parse_scan_format_extremes :
    ∃ tokens tree,
      let e := Expr.binary .pow nines
        (.assign "x_1" nines (.literal (.float (Binary64.ofPattern false Binary64.infinity)) nines))
        (.unary .minus nines (.literal (.float (Binary64.ofPattern false 1)) nines))
      Source.scan ⟨"<stdin>", e.format⟩ = .ok tokens ∧ Expr.parse tokens = .ok tree ∧
        SameShape tree e ∧ tree.format = e.format := by
  have hname : IsIdentifier "x_1" := ⟨.mk rfl (List.all_eq_true.mp rfl), rfl⟩
  refine parse_scan_format "<stdin>" ⟨⟨hname, ?_, .inr ⟨?_, numeral_nines⟩⟩, ?_, .inl ?_⟩
  · exact Binary64.negative_ofPattern (Nat.le_refl _)
  · exact (Binary64.isInf_iff _).mpr (Binary64.pattern_ofPattern (Nat.le_refl _))
  · exact Binary64.negative_ofPattern (by decide)
  · rw [Binary64.isFinite_iff, Binary64.pattern_ofPattern (by decide)]
    decide

end Expr

end Abacus
