import Abacus.Proofs.Decimal.ReadBack
import Abacus.Proofs.Number.Exact
import Abacus.Proofs.Scan.Tokens

/-!
# The longest match

The lexical grammar by itself: what a number, a word and an operator look like, and the
rule that a token is the longest stretch at the front of the text that looks like one.
Scanning follows this rule, and where nothing matches it fails as the rule says.
-/

namespace Abacus

namespace Scan

/-! ## The lexical grammar -/

def IsDigit (c : Char) : Prop :=
  '0' <= c ∧ c <= '9'

def IsLetter (c : Char) : Prop :=
  ('a' <= c ∧ c <= 'z') ∨ ('A' <= c ∧ c <= 'Z')

def singles : List (List Char × Token.Kind) :=
  [(['+'], .operator .add), (['-'], .operator .sub), (['*'], .operator .mul),
    (['/'], .operator .div), (['^'], .operator .pow), (['('], .leftParen), ([')'], .rightParen),
    (['='], .assign), (['>'], .comparison .greater), (['<'], .comparison .less)]

def doubles : List (List Char × Token.Kind) :=
  [(['=', '='], .comparison .equal), (['!', '='], .comparison .notEqual),
    (['>', '='], .comparison .greaterEqual), (['<', '='], .comparison .lessEqual)]

/--
The patterns of tokens, each with the kind of the token.

Digits without a point are an integer up to the greatest one that 64 bits hold, and a
double beyond it.
-/
inductive Pattern : List Char -> Token.Kind -> Prop where
  | integer {digits : List Char} {n : Int64} (ne_nil : digits ≠ [])
      (isDigit : ∀ c ∈ digits, IsDigit c) (value : n.toInt = Nat.ofDigitChars 10 digits 0) :
      Pattern digits (.literal (.int n))
  | large {digits : List Char} (ne_nil : digits ≠ []) (isDigit : ∀ c ∈ digits, IsDigit c)
      (value : 9223372036854775807 < Nat.ofDigitChars 10 digits 0) :
      Pattern digits (.literal (.float (Decimal.ofPlaces digits []).toFloat))
  | point {whole fraction : List Char} (ne_nil : whole ≠ [])
      (whole_digits : ∀ c ∈ whole, IsDigit c) (fraction_digits : ∀ c ∈ fraction, IsDigit c) :
      Pattern (whole ++ '.' :: fraction)
        (.literal (.float (Decimal.ofPlaces whole fraction).toFloat))
  | keyword (word : Keyword) : Pattern word.text.toList (.keyword word)
  | identifier {c : Char} {letters : List Char} (first : IsLetter c)
      (others : ∀ l ∈ letters, IsLetter l ∨ IsDigit l ∨ l = '_')
      (free : ∀ word : Keyword, word.text ≠ String.ofList (c :: letters)) :
      Pattern (c :: letters) (.identifier (String.ofList (c :: letters)))
  | single {cs : List Char} {kind : Token.Kind} (h : (cs, kind) ∈ singles) : Pattern cs kind
  | double {cs : List Char} {kind : Token.Kind} (h : (cs, kind) ∈ doubles) : Pattern cs kind

/-- A pattern matches the front of a text, and none matches more of it. -/
structure Longest (cs lexeme : List Char) (kind : Token.Kind) : Prop where
  pattern : Pattern lexeme kind
  begins : lexeme <+: cs
  length_le : ∀ other kind', Pattern other kind' -> other <+: cs -> other.length <= lexeme.length

def NoMatch (cs : List Char) : Prop :=
  ∀ lexeme kind, lexeme <+: cs -> ¬ Pattern lexeme kind

/-- The leftmost longest scan of the text that starts at a position of a source. -/
inductive Lexes (source : Source) :
    Position -> List Char -> Except Diagnostic (List Token) -> Prop where
  | done (p : Position) : Lexes source p [] (.ok [⟨.eof, .point source p⟩])
  | blank {p : Position} {c : Char} {cs : List Char} {r : Except Diagnostic (List Token)}
      (h : c = ' ' ∨ c = '\t') (next : Lexes source (p.advance c) cs r) :
      Lexes source p (c :: cs) r
  | token {p : Position} {lexeme rest : List Char} {kind : Token.Kind}
      {r : Except Diagnostic (List Token)} (h : Longest (lexeme ++ rest) lexeme kind)
      (next : Lexes source (p.advanceAll lexeme) rest r) :
      Lexes source p (lexeme ++ rest)
        (r.map (⟨kind, .within source p (p.advanceAll lexeme)⟩ :: ·))
  | expected {p : Position} {cs : List Char} (h : NoMatch ('!' :: cs)) :
      Lexes source p ('!' :: cs) (.error ⟨.expectedCharacter, "'=' (after '!')",
        .within source p (p.advanceAll ('!' :: cs.take 1)), []⟩)
  | illegal {p : Position} {c : Char} {cs : List Char} (hspace : c ≠ ' ') (htab : c ≠ '\t')
      (hbang : c ≠ '!') (h : NoMatch (c :: cs)) :
      Lexes source p (c :: cs) (.error ⟨.illegalCharacter, "'" ++ c.toString ++ "'",
        .within source p (p.advance c), []⟩)

/-! ## Patterns are lexemes -/

theorem isDigit_iff {c : Char} : c.isDigit ↔ IsDigit c := by
  unfold Char.isDigit IsDigit
  rw [Bool.and_eq_true_iff, decide_eq_true_iff, decide_eq_true_iff]
  rfl

theorem isAlpha_iff {c : Char} : c.isAlpha ↔ IsLetter c := by
  unfold Char.isAlpha Char.isUpper Char.isLower IsLetter
  rw [Bool.or_eq_true_iff, Bool.and_eq_true_iff]
  simp only [decide_eq_true_iff]
  exact or_comm

theorem isWordChar_iff {c : Char} : isWordChar c ↔ IsLetter c ∨ IsDigit c ∨ c = '_' := by
  unfold isWordChar Char.isAlphanum
  rw [Bool.or_eq_true_iff, Bool.or_eq_true_iff, isAlpha_iff, isDigit_iff, decide_eq_true_iff,
    or_assoc]

theorem ofWord?_eq_some_iff {word : String} {k : Keyword} :
    Keyword.ofWord? word = some k ↔ k.text = word := by
  constructor
  · intro h
    unfold Keyword.ofWord? at h
    split at h
    · next hvar =>
        cases h
        exact hvar.symm
    · split at h
      · next hnot =>
          cases h
          exact hnot.symm
      · cases h
  · rintro rfl
    exact Keyword.ofWord?_text k

theorem ofWord_eq_identifier {word : String} (h : ∀ k : Keyword, k.text ≠ word) :
    Token.Kind.ofWord word = .identifier word := by
  have hnone : Keyword.ofWord? word = none := by
    rw [Option.eq_none_iff_forall_ne_some]
    intro k hk
    exact h k (ofWord?_eq_some_iff.mp hk)
  rw [Token.Kind.ofWord, hnone]

theorem isWord_keyword (k : Keyword) : IsWord k.text.toList := by
  have hvar : ∀ l ∈ ['a', 'r'], isWordChar l := by simp [isWordChar]
  have hnot : ∀ l ∈ ['o', 't'], isWordChar l := by simp [isWordChar]
  cases k with
  | var => exact .mk rfl hvar
  | not => exact .mk rfl hnot

theorem fits_of_toInt {n : Int64} {z : Int} (h : n.toInt = z) : Number.Fits z :=
  h ▸ Number.fits_toInt n

theorem mem_singles_iff {cs : List Char} {kind : Token.Kind} :
    (cs, kind) ∈ singles ↔ ∃ c s, cs = [c] ∧ symbol? c = some s ∧ s.alone = some kind := by
  constructor
  · intro h
    simp only [singles, List.mem_cons, Prod.mk.injEq, List.not_mem_nil, or_false] at h
    rcases h with ⟨rfl, rfl⟩ | ⟨rfl, rfl⟩ | ⟨rfl, rfl⟩ | ⟨rfl, rfl⟩ | ⟨rfl, rfl⟩ | ⟨rfl, rfl⟩ |
      ⟨rfl, rfl⟩ | ⟨rfl, rfl⟩ | ⟨rfl, rfl⟩ | ⟨rfl, rfl⟩
    all_goals exact ⟨_, _, rfl, rfl, rfl⟩
  · rintro ⟨c, s, rfl, hs, h⟩
    unfold symbol? at hs
    split at hs <;> cases hs <;> cases h <;> simp [singles]

theorem mem_doubles_iff {cs : List Char} {kind : Token.Kind} :
    (cs, kind) ∈ doubles ↔ ∃ c s, cs = [c, '='] ∧ symbol? c = some s ∧ s.withEquals = some kind := by
  constructor
  · intro h
    simp only [doubles, List.mem_cons, Prod.mk.injEq, List.not_mem_nil, or_false] at h
    rcases h with ⟨rfl, rfl⟩ | ⟨rfl, rfl⟩ | ⟨rfl, rfl⟩ | ⟨rfl, rfl⟩
    all_goals exact ⟨_, _, rfl, rfl, rfl⟩
  · rintro ⟨c, s, rfl, hs, h⟩
    unfold symbol? at hs
    split at hs <;> cases hs <;> cases h <;> simp [doubles]

theorem Pattern.lexeme {cs : List Char} {kind : Token.Kind} (h : Pattern cs kind) :
    ∃ grows, Lexeme cs kind grows := by
  cases h with
  | @integer digits n ne_nil hdigits value =>
      have hnumeral := Numeral.whole ne_nil fun c hc => isDigit_iff.mpr (hdigits c hc)
      rw [wholeNumber_of_fits (fits_of_toInt value), ← value, Int64.ofInt_toInt] at hnumeral
      exact ⟨_, .numeral hnumeral⟩
  | large ne_nil hdigits value =>
      have hnumeral := Numeral.whole ne_nil fun c hc => isDigit_iff.mpr (hdigits c hc)
      have hlarge : ¬ Number.Fits (Nat.ofDigitChars 10 cs 0) := by
        intro hfits
        have hlt := hfits.2
        omega
      rw [wholeNumber_of_not_fits hlarge] at hnumeral
      exact ⟨_, .numeral hnumeral⟩
  | point ne_nil hwhole hfraction =>
      exact ⟨_, .numeral (.point ne_nil (fun c hc => isDigit_iff.mpr (hwhole c hc))
        fun c hc => isDigit_iff.mpr (hfraction c hc))⟩
  | keyword k =>
      have hword := Lexeme.word (isWord_keyword k)
      rw [String.ofList_toList, Token.Kind.ofWord, Keyword.ofWord?_text] at hword
      exact ⟨_, hword⟩
  | identifier first others free =>
      have hword := Lexeme.word (.mk (isAlpha_iff.mpr first) fun l hl =>
        isWordChar_iff.mpr (others l hl))
      rw [ofWord_eq_identifier free] at hword
      exact ⟨_, hword⟩
  | single h =>
      obtain ⟨c, s, rfl, hs, halone⟩ := mem_singles_iff.mp h
      exact ⟨_, .symbol hs halone⟩
  | double h =>
      obtain ⟨c, s, rfl, hs, hwith⟩ := mem_doubles_iff.mp h
      exact ⟨_, .withEquals hs hwith⟩

theorem Numeral.pattern {cs : List Char} {value : Number} (h : Numeral cs value) :
    Pattern cs (.literal value) := by
  cases h with
  | whole ne_nil hdigits =>
      have hpattern : ∀ c ∈ cs, IsDigit c := fun c hc => isDigit_iff.mp (hdigits c hc)
      cases Classical.em (Number.Fits (Nat.ofDigitChars 10 cs 0)) with
      | inl hfits =>
          rw [wholeNumber_of_fits hfits]
          exact .integer ne_nil hpattern (Int64.toInt_ofInt_of_le hfits.1 hfits.2)
      | inr hlarge =>
          rw [wholeNumber_of_not_fits hlarge]
          refine .large ne_nil hpattern ?_
          rw [← not_le]
          intro hle
          refine hlarge ⟨?_, ?_⟩ <;> omega
  | point ne_nil hwhole hfraction =>
      exact .point ne_nil (fun c hc => isDigit_iff.mp (hwhole c hc))
        fun c hc => isDigit_iff.mp (hfraction c hc)

theorem IsWord.pattern {cs : List Char} (h : IsWord cs) :
    Pattern cs (.ofWord (String.ofList cs)) := by
  cases hword : Keyword.ofWord? (String.ofList cs) with
  | some k =>
      have htext := ofWord?_eq_some_iff.mp hword
      rw [Token.Kind.ofWord, hword, ← String.toList_ofList (l := cs), ← htext]
      exact .keyword k
  | none =>
      cases h with
      | @mk c letters first others =>
          have hfree : ∀ k : Keyword, k.text ≠ String.ofList (c :: letters) := by
            intro k hk
            cases hword.symm.trans (ofWord?_eq_some_iff.mpr hk)
          rw [ofWord_eq_identifier hfree]
          exact .identifier (isAlpha_iff.mp first) (fun l hl => isWordChar_iff.mp (others l hl)) hfree

/-- The patterns of the grammar are the texts of lexemes. -/
theorem pattern_iff_lexeme {cs : List Char} {kind : Token.Kind} :
    Pattern cs kind ↔ ∃ grows, Lexeme cs kind grows := by
  constructor
  · exact Pattern.lexeme
  · rintro ⟨grows, h⟩
    cases h with
    | numeral h => exact h.pattern
    | word h => exact h.pattern
    | symbol hs h => exact .single (mem_singles_iff.mpr ⟨_, _, rfl, hs, h⟩)
    | withEquals hs h => exact .double (mem_doubles_iff.mpr ⟨_, _, rfl, hs, h⟩)

/-! ## No lexeme is longer than the one that stands at the front -/

theorem IsWord.isWordChar {cs : List Char} (h : IsWord cs) : ∀ c ∈ cs, isWordChar c := by
  cases h with
  | mk first others =>
      intro c hc
      rcases List.mem_cons.mp hc with rfl | hc
      · exact isWordChar_iff.mpr (.inl (isAlpha_iff.mp first))
      · exact others c hc

theorem Numeral.isDigit_head {c : Char} {cs : List Char} {value : Number}
    (h : Numeral (c :: cs) value) : c.isDigit := by
  generalize hall : c :: cs = all at h
  cases h with
  | whole ne_nil hdigits => exact hdigits c (by simp [← hall])
  | @point whole fraction ne_nil hwhole hfraction =>
      cases whole with
      | nil => exact absurd rfl ne_nil
      | cons d whole =>
          cases (List.cons.inj hall).1
          exact hwhole c (List.mem_cons_self ..)

theorem Numeral.goesOn_of_append {cs more : List Char} {c : Char} {value : Number}
    (h : Numeral (cs ++ c :: more) value) : goesOn cs c := by
  generalize hall : cs ++ c :: more = all at h
  cases h with
  | whole ne_nil hdigits =>
      have hc : c.isDigit := hdigits c (by simp [← hall])
      simp [goesOn, hc]
  | @point whole fraction ne_nil hwhole hfraction =>
      by_cases hc : c.isDigit
      · simp [goesOn, hc]
      · have hmem : c ∈ whole ++ '.' :: fraction := by simp [← hall]
        have hpoint : c = '.' := by
          rcases List.mem_append.mp hmem with hmem | hmem
          · exact absurd (hwhole c hmem) hc
          · rcases List.mem_cons.mp hmem with rfl | hmem
            · rfl
            · exact absurd (hfraction c hmem) hc
        subst hpoint
        have hnone : ∀ digits : List Char, (∀ d ∈ digits, d.isDigit) -> digits.count '.' = 0 := by
          intro digits hdigits
          have hpoint := not_contains_point hdigits
          rw [List.contains_eq_mem, decide_eq_false_iff_not] at hpoint
          exact List.count_eq_zero.mpr hpoint
        have hcount := congrArg (List.count '.') hall
        simp only [List.count_append, List.count_cons_self, hnone whole hwhole,
          hnone fraction hfraction] at hcount
        have hcs : '.' ∉ cs := List.count_eq_zero.mp (by omega)
        simp [goesOn, hcs]

theorem Lexeme.head_cases {c : Char} {cs : List Char} {kind : Token.Kind} {grows : Char -> Bool}
    (h : Lexeme (c :: cs) kind grows) :
    (c.isDigit ∧ ∃ value, Numeral (c :: cs) value) ∨ (c.isAlpha ∧ IsWord (c :: cs)) ∨
      ∃ s, symbol? c = some s ∧
        (cs = [] ∧ s.alone.isSome ∨ cs = ['='] ∧ s.withEquals.isSome) := by
  generalize hall : c :: cs = all at h
  cases h with
  | numeral h =>
      subst hall
      exact .inl ⟨h.isDigit_head, _, h⟩
  | word h =>
      subst hall
      cases h with
      | mk first others => exact .inr (.inl ⟨first, .mk first others⟩)
  | symbol hs h =>
      cases hall
      exact .inr (.inr ⟨_, hs, .inl ⟨rfl, by simp [h]⟩⟩)
  | withEquals hs h =>
      cases hall
      exact .inr (.inr ⟨_, hs, .inr ⟨rfl, by simp [h]⟩⟩)

/-- A character that goes on with a lexeme is one of those that make it longer. -/
theorem Lexeme.grows_of_append {cs more : List Char} {c : Char} {kind kind' : Token.Kind}
    {grows grows' : Char -> Bool} (h : Lexeme cs kind grows)
    (h' : Lexeme (cs ++ c :: more) kind' grows') : grows c := by
  cases cs with
  | nil => exact absurd rfl h.ne_nil
  | cons d ds =>
      have hlong := h'.head_cases
      generalize hall : d :: ds = all at h
      cases h with
      | numeral h =>
          subst hall
          have hd := h.isDigit_head
          rcases hlong with ⟨-, value, hnumeral⟩ | ⟨halpha, -⟩ | ⟨s, hs, -⟩
          · exact hnumeral.goesOn_of_append
          · cases (not_isDigit_of_isAlpha halpha).symm.trans hd
          · cases (plain_of_symbol? hs).2.1.symm.trans hd
      | word h =>
          cases h with
          | mk first others =>
              cases hall
              rcases hlong with ⟨hdigit, -⟩ | ⟨-, hword⟩ | ⟨s, hs, -⟩
              · cases (not_isDigit_of_isAlpha first).symm.trans hdigit
              · exact hword.isWordChar c (by simp)
              · cases (plain_of_symbol? hs).2.2.symm.trans first
      | @symbol _ s _ hs h =>
          cases hall
          have hplain := plain_of_symbol? hs
          rcases hlong with ⟨hdigit, -⟩ | ⟨halpha, -⟩ | ⟨s', hs', ⟨hnil, -⟩ | ⟨hequals, hwith⟩⟩
          · cases hplain.2.1.symm.trans hdigit
          · cases hplain.2.2.symm.trans halpha
          · cases hnil
          · cases hs.symm.trans hs'
            cases hequals
            simp [hwith]
      | withEquals hs h =>
          cases hall
          have hplain := plain_of_symbol? hs
          rcases hlong with ⟨hdigit, -⟩ | ⟨halpha, -⟩ | ⟨s', hs', ⟨hnil, -⟩ | ⟨hequals, hwith⟩⟩
          · cases hplain.2.1.symm.trans hdigit
          · cases hplain.2.2.symm.trans halpha
          · cases hnil
          · cases hequals

/-- The lexeme that the scan finds at the front is the longest. -/
theorem Stands.longest {c : Char} {kind : Token.Kind} {cs : List Char} {more : Nat}
    (h : Stands c kind cs more) : Longest (c :: cs) (c :: cs.take more) kind := by
  cases h with
  | @mk ds rest grows lexeme apart =>
      rw [List.take_left]
      refine ⟨pattern_iff_lexeme.mpr ⟨grows, lexeme⟩, List.prefix_append (c :: ds) rest, ?_⟩
      intro other kind' hother hfront
      by_contra hlt
      have hle : (c :: ds).length <= other.length := by omega
      obtain ⟨tail, rfl⟩ :=
        List.prefix_of_prefix_length_le (List.prefix_append (c :: ds) rest) hfront hle
      cases tail with
      | nil => exact hlt (by simp)
      | cons d tail =>
          obtain ⟨grows', hlexeme'⟩ := pattern_iff_lexeme.mp hother
          have hgrows := lexeme.grows_of_append hlexeme'
          have hrest : d :: tail <+: rest := (List.prefix_append_right_inj (c :: ds)).mp hfront
          obtain ⟨after, rfl⟩ := hrest
          cases (apart d rfl).symm.trans hgrows

theorem Longest.unique {cs lexeme lexeme' : List Char} {kind kind' : Token.Kind}
    (h : Longest cs lexeme kind) (h' : Longest cs lexeme' kind') :
    lexeme = lexeme' ∧ kind = kind' := by
  have hlength := Nat.le_antisymm (h'.length_le _ _ h.pattern h.begins)
    (h.length_le _ _ h'.pattern h'.begins)
  have heq := (List.prefix_of_prefix_length_le h.begins h'.begins (Nat.le_of_eq hlength)).eq_of_length
    hlength
  subst heq
  refine ⟨rfl, ?_⟩
  obtain ⟨grows, hlexeme⟩ := pattern_iff_lexeme.mp h.pattern
  obtain ⟨grows', hlexeme'⟩ := pattern_iff_lexeme.mp h'.pattern
  cases lexeme with
  | nil => exact absurd rfl hlexeme.ne_nil
  | cons c ds =>
      have hfront : front c (ds ++ []) = .token kind ds.length :=
        front_of_lexeme hlexeme (apart_nil grows)
      rw [front_of_lexeme hlexeme' (apart_nil grows')] at hfront
      cases hfront
      rfl

/-! ## Where nothing matches -/

theorem noMatch_of_fault {c : Char} {cs : List Char} {cause : Cause} {more : Nat}
    (h : front c cs = .fault cause more) : NoMatch (c :: cs) := by
  rintro lexeme kind ⟨rest, hrest⟩ hpattern
  obtain ⟨grows, hlexeme⟩ := pattern_iff_lexeme.mp hpattern
  cases lexeme with
  | nil => exact absurd rfl hlexeme.ne_nil
  | cons d ds =>
      obtain ⟨rfl, rfl⟩ := List.cons.inj hrest
      have hhead := hlexeme.head_cases
      rcases front_eq_fault h with ⟨rfl, hequals, -⟩ | ⟨hdigit, halpha, hs, -⟩
      · rcases hhead with ⟨hdigit, -⟩ | ⟨halpha, -⟩ | ⟨s, hs, ⟨-, halone⟩ | ⟨rfl, -⟩⟩
        · cases hdigit
        · cases halpha
        · cases hs
          cases halone
        · exact hequals rfl
      · rcases hhead with ⟨hdigit', -⟩ | ⟨halpha', -⟩ | ⟨s, hs', -⟩
        · cases hdigit.symm.trans hdigit'
        · cases halpha.symm.trans halpha'
        · cases hs.symm.trans hs'

/-! ## The scan follows the grammar -/

theorem take_min_length (cs : List Char) : cs.take (min 1 cs.length) = cs.take 1 := by
  cases cs with
  | nil => rfl
  | cons c cs => simp

variable {source : Source} {p : Position} {cs : List Char}

theorem lexes_of_fault {c : Char} {cause : Cause} {more : Nat}
    (h : front c cs = .fault cause more) :
    Lexes source p (c :: cs)
      (.error (Error.diagnostic ⟨cause, .within source p (p.advanceAll (c :: cs.take more))⟩)) := by
  have hnone := noMatch_of_fault h
  rcases front_eq_fault h with ⟨rfl, -, rfl, rfl⟩ | ⟨-, -, hs, rfl, rfl⟩
  · rw [take_min_length]
    exact .expected hnone
  · have hblank : ¬ (c = ' ' ∨ c = '\t') := by
      intro hblank
      cases (front_eq_blank_iff.mpr (isBlank_iff.mpr hblank)).symm.trans h
    rw [not_or] at hblank
    refine .illegal hblank.1 hblank.2 ?_ hnone
    rintro rfl
    cases hs

theorem lexes_of_token {c : Char} {kind : Token.Kind} {more : Nat}
    {r : Except Diagnostic (List Token)} (h : front c cs = .token kind more)
    (next : Lexes source (p.advanceAll (c :: cs.take more)) (cs.drop more) r) :
    Lexes source p (c :: cs)
      (r.map (⟨kind, .within source p (p.advanceAll (c :: cs.take more))⟩ :: ·)) := by
  have hlongest := (front_eq_token_iff.mp h).longest
  have hsplit : c :: cs = (c :: cs.take more) ++ cs.drop more := by simp
  rw [hsplit] at hlongest
  have htoken := Lexes.token hlongest next
  rwa [← hsplit] at htoken

/-- The result of a scan is one of the grammar. -/
theorem lexes_tokens (source : Source) (p : Position) (cs : List Char) :
    Lexes source p cs ((tokens source p cs).mapError Error.diagnostic) := by
  fun_induction tokens source p cs with
  | case1 p => exact .done p
  | case2 p c cs hfront ih =>
      exact .blank (isBlank_iff.mp (front_eq_blank_iff.mp hfront)) ih
  | case3 p c cs kind more hfront stop rest hrest ih =>
      rw [hrest] at ih
      exact lexes_of_token hfront ih
  | case4 p c cs kind more hfront stop e hrest ih =>
      rw [hrest] at ih
      exact lexes_of_token hfront ih
  | case5 p c cs cause more hfront => exact lexes_of_fault hfront

theorem Stands.le_length {c : Char} {kind : Token.Kind} {more : Nat} (h : Stands c kind cs more) :
    more <= cs.length := by
  cases h with
  | mk lexeme apart => simp

theorem isBlank_eq_false_of_lexeme {c : Char} {ds : List Char} {kind : Token.Kind}
    {grows : Char -> Bool} (h : Lexeme (c :: ds) kind grows) : isBlank c = false := by
  rcases h.head_cases with ⟨hdigit, -⟩ | ⟨halpha, -⟩ | ⟨s, hs, -⟩
  · exact not_isBlank rfl rfl hdigit
  · exact not_isBlank rfl rfl halpha
  · exact (plain_of_symbol? hs).1

/-- The longest match of the grammar is what the scan finds. -/
theorem Longest.front_eq {c : Char} {ds rest : List Char} {kind : Token.Kind}
    (h : Longest (c :: (ds ++ rest)) (c :: ds) kind) :
    front c (ds ++ rest) = .token kind ds.length := by
  cases hfront : front c (ds ++ rest) with
  | blank =>
      obtain ⟨grows, hlexeme⟩ := pattern_iff_lexeme.mp h.pattern
      have hblank := front_eq_blank_iff.mp hfront
      cases (isBlank_eq_false_of_lexeme hlexeme).symm.trans hblank
  | fault cause more => exact absurd h.pattern (noMatch_of_fault hfront _ _ h.begins)
  | token kind' more =>
      have hstands := front_eq_token_iff.mp hfront
      obtain ⟨hlexeme, rfl⟩ := h.unique hstands.longest
      have hlength := congrArg List.length hlexeme
      rw [List.length_cons, List.length_cons, List.length_take,
        Nat.min_eq_left hstands.le_length] at hlength
      rw [Nat.succ.inj hlength]

/-- The grammar gives no other result than the scan. -/
theorem Lexes.tokens_eq {r : Except Diagnostic (List Token)} (h : Lexes source p cs r) :
    (tokens source p cs).mapError Error.diagnostic = r := by
  induction h with
  | done p =>
      rw [tokens]
      rfl
  | blank h next ih =>
      rw [tokens, front_eq_blank_iff.mpr (isBlank_iff.mpr h)]
      exact ih
  | @token p lexeme rest kind r h next ih =>
      cases lexeme with
      | nil =>
          obtain ⟨grows, hlexeme⟩ := pattern_iff_lexeme.mp h.pattern
          exact absurd rfl hlexeme.ne_nil
      | cons c ds =>
          rw [List.cons_append, tokens, h.front_eq]
          simp only [List.take_left, List.drop_left]
          rw [← ih]
          cases tokens source (p.advanceAll (c :: ds)) rest with
          | ok ts => rfl
          | error e => rfl
  | @expected p cs h =>
      cases hfront : front '!' cs with
      | blank => cases front_eq_blank_iff.mp hfront
      | token kind more =>
          have hlongest := (front_eq_token_iff.mp hfront).longest
          exact absurd hlongest.pattern (h _ _ hlongest.begins)
      | fault cause more =>
          obtain ⟨-, -, rfl, rfl⟩ | ⟨-, -, hs, -⟩ := front_eq_fault hfront
          · rw [tokens, hfront, ← take_min_length cs]
            rfl
          · cases hs
  | @illegal p c cs hspace htab hbang h =>
      cases hfront : front c cs with
      | blank =>
          rcases isBlank_iff.mp (front_eq_blank_iff.mp hfront) with rfl | rfl
          · exact absurd rfl hspace
          · exact absurd rfl htab
      | token kind more =>
          have hlongest := (front_eq_token_iff.mp hfront).longest
          exact absurd hlongest.pattern (h _ _ hlongest.begins)
      | fault cause more =>
          obtain ⟨rfl, -⟩ | ⟨-, -, -, rfl, rfl⟩ := front_eq_fault hfront
          · exact absurd rfl hbang
          · rw [tokens, hfront]
            rfl

theorem float_of_pattern {x : Float} (h : Pattern cs (.literal (.float x))) :
    x.isNaN = false ∧ Binary64.negative x = false := by
  have hread : ∀ d : Decimal, d.toFloat.isNaN = false ∧ Binary64.negative d.toFloat = false := by
    intro d
    have hle := Decimal.nearest_le_infinity d
    refine ⟨Binary64.isNaN_eq_false ?_, Binary64.negative_ofPattern hle⟩
    rw [Decimal.toFloat, Binary64.pattern_ofPattern hle]
    exact hle
  cases h with
  | large => exact hread _
  | point => exact hread _
  | single h => simp [singles] at h
  | double h => simp [doubles] at h

end Scan

/--
Scanning is the leftmost longest scan of the lexical grammar, its errors included.  A
literal that is a double is neither a NaN nor negative.
-/
theorem Source.scan_iff_lexes (s : Source) :
    (∀ r, s.scan = r ↔ Scan.Lexes s .zero s.text.toList r) ∧
      ∀ cs x, Scan.Pattern cs (.literal (.float x)) ->
        x.isNaN = false ∧ Binary64.negative x = false := by
  refine ⟨fun r => ⟨?_, Scan.Lexes.tokens_eq⟩, fun cs x => Scan.float_of_pattern⟩
  rintro rfl
  exact Scan.lexes_tokens s .zero s.text.toList

/-- A keyword inside a longer word, an operator of two characters, and a newline at fault. -/
theorem Source.scan_iff_lexes_newline :
    Scan.Lexes ⟨"text", "varx>=!\n"⟩ .zero "varx>=!\n".toList
      (.error ⟨.expectedCharacter, "'=' (after '!')",
        .within ⟨"text", "varx>=!\n"⟩ ⟨6, 0, 6⟩ ⟨8, 1, 0⟩, []⟩) := by
  have hscan : Source.scan ⟨"text", "varx>=!\n"⟩ =
      .error ⟨.expectedCharacter, "'=' (after '!')",
        .within ⟨"text", "varx>=!\n"⟩ ⟨6, 0, 6⟩ ⟨8, 1, 0⟩, []⟩ := by
    cbv
  exact ((Source.scan_iff_lexes _).1 _).mp hscan

end Abacus
