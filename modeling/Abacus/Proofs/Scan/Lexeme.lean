import Abacus.Token.Scan

/-!
# Lexemes

The patterns that tokens are written in.  A lexeme comes with the characters that
would make it longer, and what stands at the front of a text is a lexeme together
with a rest that does not begin with one of those.
-/

namespace Abacus

namespace Scan

/-! ## Patterns -/

theorem wholeNumber_of_fits {digits : List Char}
    (h : Number.Fits (Nat.ofDigitChars 10 digits 0)) :
    wholeNumber digits = .int (Int64.ofInt (Nat.ofDigitChars 10 digits 0)) := by
  rw [wholeNumber, Number.ofInt?, if_pos h, Option.getD_some]

theorem wholeNumber_of_not_fits {digits : List Char}
    (h : ¬ Number.Fits (Nat.ofDigitChars 10 digits 0)) :
    wholeNumber digits = .float (Decimal.ofPlaces digits []).toFloat := by
  rw [wholeNumber, Number.ofInt?, if_neg h, Option.getD_none]

/-- Digits, or digits with a point among them that is not the first character. -/
inductive Numeral : List Char -> Number -> Prop where
  | whole {digits : List Char} (ne_nil : digits ≠ []) (isDigit : ∀ c ∈ digits, c.isDigit) :
      Numeral digits (wholeNumber digits)
  | point {whole fraction : List Char} (ne_nil : whole ≠ [])
      (whole_digits : ∀ c ∈ whole, c.isDigit) (fraction_digits : ∀ c ∈ fraction, c.isDigit) :
      Numeral (whole ++ '.' :: fraction) (pointNumber whole fraction)

inductive IsWord : List Char -> Prop where
  | mk {c : Char} {letters : List Char} (first : c.isAlpha)
      (others : ∀ l ∈ letters, isWordChar l) : IsWord (c :: letters)

def IsIdentifier (name : String) : Prop :=
  IsWord name.toList ∧ Keyword.ofWord? name = none

def goesOn (numeral : List Char) (c : Char) : Bool :=
  c.isDigit || (c = '.' && !numeral.contains '.')

/-- The characters of a token, its kind, and the characters that would make it longer. -/
inductive Lexeme : List Char -> Token.Kind -> (Char -> Bool) -> Prop where
  | numeral {cs : List Char} {value : Number} (h : Numeral cs value) :
      Lexeme cs (.literal value) (goesOn cs)
  | word {cs : List Char} (h : IsWord cs) :
      Lexeme cs (.ofWord (String.ofList cs)) isWordChar
  | symbol {c : Char} {s : Symbol} {kind : Token.Kind} (hs : symbol? c = some s)
      (h : s.alone = some kind) : Lexeme [c] kind (fun d => s.withEquals.isSome && d = '=')
  | withEquals {c : Char} {s : Symbol} {kind : Token.Kind} (hs : symbol? c = some s)
      (h : s.withEquals = some kind) : Lexeme [c, '='] kind (fun _ => false)

/-- A text that does not begin with one of the given characters. -/
def Apart (grows : Char -> Bool) (rest : List Char) : Prop :=
  ∀ c ∈ rest.head?, grows c = false

theorem apart_nil (grows : Char -> Bool) : Apart grows [] := by
  intro c hc
  cases hc

def IsSymbol (kind : Token.Kind) : Prop :=
  (∃ op, kind = .operator op) ∨ (∃ op, kind = .comparison op) ∨ kind = .assign ∨
    kind = .leftParen ∨ kind = .rightParen

theorem isSymbol_of_symbol? {c : Char} {s : Symbol} {kind : Token.Kind} (hs : symbol? c = some s)
    (h : s.alone = some kind ∨ s.withEquals = some kind) : IsSymbol kind := by
  unfold symbol? at hs
  unfold IsSymbol
  split at hs <;> cases hs <;> rcases h with h | h <;> cases h <;> simp

/-- A lexeme is a numeral, a word or a symbol, and its kind says which. -/
theorem Lexeme.kind_cases {cs : List Char} {kind : Token.Kind} {grows : Char -> Bool}
    (h : Lexeme cs kind grows) :
    (∃ value, kind = .literal value ∧ Numeral cs value) ∨
      (kind = .ofWord (String.ofList cs) ∧ IsWord cs) ∨ IsSymbol kind := by
  cases h with
  | numeral h => exact .inl ⟨_, rfl, h⟩
  | word h => exact .inr (.inl ⟨rfl, h⟩)
  | symbol hs h => exact .inr (.inr (isSymbol_of_symbol? hs (.inl h)))
  | withEquals hs h => exact .inr (.inr (isSymbol_of_symbol? hs (.inr h)))

theorem ofWord_cases (word : String) :
    (∃ k, Token.Kind.ofWord word = .keyword k) ∨
      Token.Kind.ofWord word = .identifier word ∧ Keyword.ofWord? word = none := by
  unfold Token.Kind.ofWord
  cases Keyword.ofWord? word with
  | none => exact .inr ⟨rfl, rfl⟩
  | some k => exact .inl ⟨k, rfl⟩

theorem Lexeme.ne_eof {cs : List Char} {grows : Char -> Bool} : ¬ Lexeme cs .eof grows := by
  intro h
  rcases h.kind_cases with ⟨_, hkind, _⟩ | ⟨hkind, _⟩ | hkind
  · cases hkind
  · rcases ofWord_cases (String.ofList cs) with ⟨k, hword⟩ | ⟨hword, _⟩
    · cases hkind.trans hword
    · cases hkind.trans hword
  · simp [IsSymbol] at hkind

theorem Lexeme.numeral_of_literal {cs : List Char} {value : Number} {grows : Char -> Bool}
    (h : Lexeme cs (.literal value) grows) : Numeral cs value := by
  rcases h.kind_cases with ⟨_, hkind, hnumeral⟩ | ⟨hkind, _⟩ | hkind
  · cases hkind
    exact hnumeral
  · rcases ofWord_cases (String.ofList cs) with ⟨k, hword⟩ | ⟨hword, _⟩
    · cases hkind.trans hword
    · cases hkind.trans hword
  · simp [IsSymbol] at hkind

theorem Lexeme.word_of_identifier {cs : List Char} {name : String} {grows : Char -> Bool}
    (h : Lexeme cs (.identifier name) grows) :
    IsWord cs ∧ name = String.ofList cs ∧ Keyword.ofWord? name = none := by
  rcases h.kind_cases with ⟨_, hkind, _⟩ | ⟨hkind, hword⟩ | hkind
  · cases hkind
  · rcases ofWord_cases (String.ofList cs) with ⟨k, hofWord⟩ | ⟨hofWord, hnone⟩
    · cases hkind.trans hofWord
    · cases hkind.trans hofWord
      exact ⟨hword, rfl, hnone⟩
  · simp [IsSymbol] at hkind

theorem Lexeme.isIdentifier {cs : List Char} {name : String} {grows : Char -> Bool}
    (h : Lexeme cs (.identifier name) grows) : IsIdentifier name := by
  obtain ⟨hword, rfl, hnone⟩ := h.word_of_identifier
  exact ⟨by rwa [String.toList_ofList], hnone⟩

/-! ## Runs of characters -/

section Runs

variable {p : Char -> Bool} {run rest : List Char}

theorem takeWhile_run (hrun : ∀ c ∈ run, p c) (hrest : Apart p rest) :
    (run ++ rest).takeWhile p = run := by
  rw [List.takeWhile_append_of_pos hrun]
  cases rest with
  | nil => simp
  | cons c rest => simp [hrest c rfl]

theorem dropWhile_run (hrun : ∀ c ∈ run, p c) (hrest : Apart p rest) :
    (run ++ rest).dropWhile p = rest := by
  rw [List.dropWhile_append_of_pos hrun]
  cases rest with
  | nil => rfl
  | cons c rest => simp [hrest c rfl]

theorem exists_run (p : Char -> Bool) (cs : List Char) :
    ∃ run rest, cs = run ++ rest ∧ (∀ c ∈ run, p c) ∧ Apart p rest := by
  refine ⟨cs.takeWhile p, cs.dropWhile p, List.takeWhile_append_dropWhile.symm, ?_, ?_⟩
  · exact List.all_eq_true.mp List.all_takeWhile
  · intro c hc
    have hnot := List.head?_dropWhile_not p cs
    rw [Option.mem_def.mp hc] at hnot
    exact hnot

end Runs

/-! ## The first character decides -/

theorem isBlank_iff {c : Char} : isBlank c ↔ c = ' ' ∨ c = '\t' := by
  unfold isBlank
  rw [Bool.or_eq_true_iff, decide_eq_true_iff, decide_eq_true_iff]

theorem not_isBlank {p : Char -> Bool} (hspace : p ' ' = false) (htab : p '\t' = false)
    {c : Char} (h : p c) : isBlank c = false := by
  simp only [isBlank, Bool.or_eq_false_iff, decide_eq_false_iff_not]
  constructor
  · rintro rfl
    cases hspace.symm.trans h
  · rintro rfl
    cases htab.symm.trans h

theorem not_isDigit_of_isAlpha {c : Char} (h : c.isAlpha) : c.isDigit = false := by
  have hletter : (65 <= c.val.toNat ∧ c.val.toNat <= 90) ∨
      (97 <= c.val.toNat ∧ c.val.toNat <= 122) := by
    rcases Bool.or_eq_true_iff.mp h with hupper | hlower
    · exact .inl (of_decide_eq_true hupper)
    · have hlower := Bool.and_eq_true_iff.mp hlower
      exact .inr ⟨of_decide_eq_true hlower.1, of_decide_eq_true hlower.2⟩
  apply Bool.eq_false_iff.mpr
  intro hdigit
  have hdigit := Bool.and_eq_true_iff.mp hdigit
  have hlow : 48 <= c.val.toNat := of_decide_eq_true hdigit.1
  have hhigh : c.val.toNat <= 57 := of_decide_eq_true hdigit.2
  omega

theorem front_of_isDigit {c : Char} (h : c.isDigit) (cs : List Char) :
    front c cs = number c cs := by
  rw [front, not_isBlank rfl rfl h, if_neg Bool.false_ne_true, if_pos h]

theorem front_of_isAlpha {c : Char} (h : c.isAlpha) (cs : List Char) :
    front c cs = word c cs := by
  rw [front, not_isBlank rfl rfl h, not_isDigit_of_isAlpha h, if_neg Bool.false_ne_true,
    if_neg Bool.false_ne_true, if_pos h]

theorem plain_of_symbol? {c : Char} {s : Symbol} (h : symbol? c = some s) :
    isBlank c = false ∧ c.isDigit = false ∧ c.isAlpha = false := by
  unfold symbol? at h
  split at h <;> cases h <;> decide

theorem front_of_symbol? {c : Char} {s : Symbol} (h : symbol? c = some s) (cs : List Char) :
    front c cs = symbol c s cs := by
  have hplain := plain_of_symbol? h
  rw [front, hplain.1, hplain.2.1, hplain.2.2, h]
  rfl

/-! ## From a lexeme to the front -/

theorem not_contains_point {digits : List Char} (h : ∀ c ∈ digits, c.isDigit) :
    digits.contains '.' = false := by
  rw [List.contains_eq_mem, decide_eq_false_iff_not]
  intro hmem
  cases h '.' hmem

theorem Apart.isDigit {numeral rest : List Char} (h : Apart (goesOn numeral) rest) :
    Apart Char.isDigit rest := by
  intro c hc
  exact (Bool.or_eq_false_iff.mp (h c hc)).1

theorem number_whole {c : Char} {ds rest : List Char} (hds : ∀ d ∈ c :: ds, d.isDigit)
    (hrest : Apart (goesOn (c :: ds)) rest) :
    number c (ds ++ rest) = .token (.literal (wholeNumber (c :: ds))) ds.length := by
  have hrun : ∀ d ∈ ds, d.isDigit := fun d hd => hds d (List.mem_cons_of_mem c hd)
  unfold number
  rw [takeWhile_run hrun hrest.isDigit, dropWhile_run hrun hrest.isDigit]
  split
  · next hpoint =>
      have hstop := hrest '.' rfl
      rw [goesOn, not_contains_point hds] at hstop
      cases hstop
  · rfl

theorem number_point {c : Char} {ds fraction rest : List Char} (hds : ∀ d ∈ ds, d.isDigit)
    (hfraction : ∀ d ∈ fraction, d.isDigit) (hrest : Apart Char.isDigit rest) :
    number c (ds ++ '.' :: (fraction ++ rest)) =
      .token (.literal (pointNumber (c :: ds) fraction)) (ds.length + 1 + fraction.length) := by
  have hpoint : Apart Char.isDigit ('.' :: (fraction ++ rest)) := by
    intro d hd
    cases hd
    rfl
  unfold number
  rw [takeWhile_run hds hpoint, dropWhile_run hds hpoint]
  simp only [takeWhile_run hfraction hrest]

theorem symbol_alone {c : Char} {s : Symbol} {kind : Token.Kind} {rest : List Char}
    (h : s.alone = some kind) (hrest : Apart (fun d => s.withEquals.isSome && d = '=') rest) :
    symbol c s rest = .token kind 0 := by
  unfold symbol
  split
  · next hwith =>
      have hstop := hrest '=' rfl
      rw [hwith] at hstop
      cases hstop
  · rw [h]

/-- A lexeme stands at the front of a text if the rest does not make it longer. -/
theorem front_of_lexeme {c : Char} {ds rest : List Char} {kind : Token.Kind}
    {grows : Char -> Bool} (h : Lexeme (c :: ds) kind grows) (hrest : Apart grows rest) :
    front c (ds ++ rest) = .token kind ds.length := by
  generalize hcs : c :: ds = cs at h
  cases h with
  | numeral h =>
      cases h with
      | whole hne hdigits =>
          subst hcs
          rw [front_of_isDigit (hdigits c (List.mem_cons_self ..)), number_whole hdigits hrest]
      | @point whole fraction hne hwhole hfraction =>
          cases whole with
          | nil => exact absurd rfl hne
          | cons d whole =>
              rw [List.cons_append] at hcs
              obtain ⟨rfl, rfl⟩ := List.cons.inj hcs
              have hrun : ∀ e ∈ whole, e.isDigit :=
                fun e he => hwhole e (List.mem_cons_of_mem c he)
              rw [front_of_isDigit (hwhole c (List.mem_cons_self ..)), List.append_assoc,
                List.cons_append, number_point hrun hfraction hrest.isDigit]
              simp only [List.length_append, List.length_cons]
              rw [Nat.add_right_comm, Nat.add_assoc]
  | word h =>
      cases h with
      | mk first others =>
          cases hcs
          rw [front_of_isAlpha first, word, takeWhile_run others hrest]
  | symbol hs h =>
      cases hcs
      rw [front_of_symbol? hs, List.nil_append, symbol_alone h hrest]
      rfl
  | withEquals hs h =>
      cases hcs
      rw [front_of_symbol? hs]
      unfold symbol
      rw [h]
      rfl

/-! ## From the front to a lexeme -/

/-- The first character and `more` after it are a lexeme that the rest does not make longer. -/
inductive Stands (c : Char) (kind : Token.Kind) : List Char -> Nat -> Prop where
  | mk {ds rest : List Char} {grows : Char -> Bool} (lexeme : Lexeme (c :: ds) kind grows)
      (apart : Apart grows rest) : Stands c kind (ds ++ rest) ds.length

theorem Stands.front_eq {c : Char} {kind : Token.Kind} {cs : List Char} {more : Nat}
    (h : Stands c kind cs more) : front c cs = .token kind more := by
  cases h with
  | mk lexeme apart => exact front_of_lexeme lexeme apart

theorem exists_stands_of_isDigit {c : Char} (hc : c.isDigit) (cs : List Char) :
    ∃ kind more, Stands c kind cs more := by
  obtain ⟨ds, rest, rfl, hds, hrest⟩ := exists_run Char.isDigit cs
  have hdigits : ∀ d ∈ c :: ds, d.isDigit := by
    intro d hd
    rcases List.mem_cons.mp hd with rfl | hd
    · exact hc
    · exact hds d hd
  by_cases hpoint : rest.head? = some '.'
  · obtain ⟨tail, rfl⟩ := List.head?_eq_some_iff.mp hpoint
    obtain ⟨fraction, rest, rfl, hfraction, hrest⟩ := exists_run Char.isDigit tail
    have hnumeral := Numeral.point (List.cons_ne_nil c ds) hdigits hfraction
    rw [List.cons_append] at hnumeral
    have hapart : Apart (goesOn (c :: (ds ++ '.' :: fraction))) rest := by
      intro d hd
      simp [goesOn, hrest d hd]
    have hstands := Stands.mk (.numeral hnumeral) hapart
    rw [List.append_assoc] at hstands
    exact ⟨_, _, hstands⟩
  · have hapart : Apart (goesOn (c :: ds)) rest := by
      intro d hd
      have hne : d ≠ '.' := fun he => hpoint (he ▸ hd)
      simp [goesOn, hrest d hd, hne]
    exact ⟨_, _, .mk (.numeral (.whole (List.cons_ne_nil c ds) hdigits)) hapart⟩

theorem exists_stands_of_isAlpha {c : Char} (hc : c.isAlpha) (cs : List Char) :
    ∃ kind more, Stands c kind cs more := by
  obtain ⟨letters, rest, rfl, hletters, hrest⟩ := exists_run isWordChar cs
  exact ⟨_, _, .mk (.word (.mk hc hletters)) hrest⟩

theorem stands_of_symbol {c : Char} {s : Symbol} {cs : List Char} {kind : Token.Kind}
    {more : Nat} (hs : symbol? c = some s) (h : symbol c s cs = .token kind more) :
    Stands c kind cs more := by
  unfold symbol at h
  split at h
  · next hwith =>
      cases h
      have hlexeme := Lexeme.withEquals hs hwith
      exact .mk hlexeme (fun _ _ => rfl)
  · next cs _ _ hnot =>
      split at h
      · next halone =>
          cases h
          have hapart : Apart (fun d => s.withEquals.isSome && d = '=') cs := by
            intro d hd
            obtain ⟨tail, rfl⟩ := List.head?_eq_some_iff.mp hd
            rw [Bool.and_eq_false_iff, decide_eq_false_iff_not]
            cases hwith : s.withEquals with
            | none => exact .inl rfl
            | some kind => exact .inr fun he => hnot kind tail hwith (he ▸ rfl)
          exact .mk (.symbol hs halone) hapart
      · cases h

/-- What the scan finds at the front of a text, in terms of lexemes. -/
theorem front_eq_token_iff {c : Char} {kind : Token.Kind} {cs : List Char} {more : Nat} :
    front c cs = .token kind more ↔ Stands c kind cs more := by
  constructor
  · intro h
    by_cases hdigit : c.isDigit
    · obtain ⟨kind', more', hstands⟩ := exists_stands_of_isDigit hdigit cs
      cases hstands.front_eq.symm.trans h
      exact hstands
    · by_cases halpha : c.isAlpha
      · obtain ⟨kind', more', hstands⟩ := exists_stands_of_isAlpha halpha cs
        cases hstands.front_eq.symm.trans h
        exact hstands
      · cases hs : symbol? c with
        | some s =>
            rw [front_of_symbol? hs] at h
            exact stands_of_symbol hs h
        | none =>
            rw [front, if_neg hdigit, if_neg halpha, hs] at h
            split at h <;> cases h
  · exact Stands.front_eq

theorem front_eq_blank_iff {c : Char} {cs : List Char} : front c cs = .blank ↔ isBlank c := by
  constructor
  · intro h
    unfold front number word symbol at h
    grind
  · exact fun h => if_pos h

theorem symbol_eq_fault {c : Char} {s : Symbol} {cs : List Char} {cause : Cause} {more : Nat}
    (h : symbol c s cs = .fault cause more) :
    s.alone = none ∧ (s.withEquals.isSome -> cs.head? ≠ some '=') ∧ cause = .equalsAfter c ∧
      more = min 1 cs.length := by
  unfold symbol at h
  split at h
  · cases h
  · next hnot =>
      split at h
      · cases h
      · next halone =>
          cases h
          refine ⟨halone, ?_, rfl, rfl⟩
          intro hwith hhead
          obtain ⟨kind, hkind⟩ := Option.isSome_iff_exists.mp hwith
          obtain ⟨tail, rfl⟩ := List.head?_eq_some_iff.mp hhead
          exact hnot kind tail hkind rfl

theorem eq_bang_of_alone {c : Char} {s : Symbol} (hs : symbol? c = some s)
    (h : s.alone = none) : c = '!' ∧ s.withEquals.isSome := by
  unfold symbol? at hs
  split at hs <;> cases hs <;> cases h
  exact ⟨rfl, rfl⟩

/-- A scan fails at an exclamation mark without an equals sign, or where no token starts. -/
theorem front_eq_fault {c : Char} {cs : List Char} {cause : Cause} {more : Nat}
    (h : front c cs = .fault cause more) :
    (c = '!' ∧ cs.head? ≠ some '=' ∧ cause = .equalsAfter '!' ∧ more = min 1 cs.length) ∨
      (c.isDigit = false ∧ c.isAlpha = false ∧ symbol? c = none ∧ cause = .illegal c ∧
        more = 0) := by
  by_cases hdigit : c.isDigit
  · obtain ⟨kind, n, hstands⟩ := exists_stands_of_isDigit hdigit cs
    cases hstands.front_eq.symm.trans h
  by_cases halpha : c.isAlpha
  · obtain ⟨kind, n, hstands⟩ := exists_stands_of_isAlpha halpha cs
    cases hstands.front_eq.symm.trans h
  cases hs : symbol? c with
  | none =>
      right
      rw [front, if_neg hdigit, if_neg halpha, hs] at h
      split at h
      · cases h
      · cases h
        exact ⟨Bool.eq_false_iff.mpr hdigit, Bool.eq_false_iff.mpr halpha, rfl, rfl, rfl⟩
  | some s =>
      left
      rw [front_of_symbol? hs] at h
      obtain ⟨halone, hequals, rfl, rfl⟩ := symbol_eq_fault h
      obtain ⟨rfl, hwith⟩ := eq_bang_of_alone hs halone
      exact ⟨rfl, hequals hwith, rfl, rfl⟩

end Scan

end Abacus
