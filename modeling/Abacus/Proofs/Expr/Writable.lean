import Abacus.Expr.Format
import Abacus.Proofs.Decimal.ReadBack
import Abacus.Proofs.Number.Exact
import Abacus.Proofs.Parse.Grammar
import Abacus.Proofs.Scan.Tokens

/-!
# Writable expressions

The expressions whose names and literals a scan can give.  The text of a literal is
then a numeral for its number, and every expression that is read from a source is
writable.
-/

namespace Abacus

open Scan

namespace Expr

/--
The numbers that literals have: no sign, and no NaN.

An infinite one has no digits of its own, so the text that it came from has to be
a numeral for it.
-/
def LiteralNumber (value : Number) (mark : Span) : Prop :=
  match value with
  | .int n => 0 <= n.toInt
  | .float x =>
      Binary64.negative x = false ∧
        (x.isFinite ∨ x.isInf ∧ Numeral mark.text.toList (.float x))

/-- The expressions whose names are identifiers and whose literals are numerals. -/
def Writable : Expr -> Prop
  | literal value mark => LiteralNumber value mark
  | access name _ => IsIdentifier name
  | assign name _ value => IsIdentifier name ∧ value.Writable
  | unary _ _ operand => operand.Writable
  | binary _ _ left right => left.Writable ∧ right.Writable

/-! ## The text of a literal -/

theorem ofInt?_toInt (n : Int64) : Number.ofInt? n.toInt = some (.int n) :=
  Number.ofInt?_eq_some_iff.mpr ⟨n, rfl, rfl⟩

theorem numeral_int {n : Int64} (h : 0 <= n.toInt) :
    Numeral (Number.text (.int n)).toList (.int n) := by
  obtain ⟨k, hk⟩ := Int.eq_ofNat_of_zero_le h
  have hnumeral := Numeral.whole Nat.toDigits_ne_nil
    (fun _ hc => Decimal.isDigit_of_mem_toDigits (n := k) hc)
  have hvalue : wholeNumber (Nat.toDigits 10 k) = .int n := by
    rw [wholeNumber, Nat.ofDigitChars_ten_toDigits, ← hk, ofInt?_toInt, Option.getD_some]
  have htext : Number.text (.int n) = String.ofList (Nat.toDigits 10 k) := by
    change toString n.toInt = _
    rw [hk]
    exact Nat.toString_eq_ofList_toDigits
  rw [hvalue] at hnumeral
  rwa [htext, String.toList_ofList]

theorem numeral_float {x : Float} (hsign : Binary64.negative x = false)
    (hfinite : x.isFinite) : Numeral (Number.text (.float x)).toList (.float x) := by
  obtain ⟨whole, fraction, htext, hplaces, hread⟩ := Decimal.writeFloat_plain hsign hfinite
  have hnumeral := Numeral.point hplaces.ne_nil hplaces.whole_digits hplaces.fraction_digits
  rw [← htext, pointNumber, hread] at hnumeral
  exact hnumeral

/-- The text of a literal is a numeral for its number. -/
theorem numeral_literalText {value : Number} {mark : Span} (h : LiteralNumber value mark) :
    Numeral (literalText value mark).toList value := by
  cases value with
  | int n =>
      exact numeral_int h
  | float x =>
      obtain ⟨hsign, hfinite | ⟨hinf, hnumeral⟩⟩ := h
      · rw [literalText, if_pos (show (Number.float x).isFinite from hfinite)]
        exact numeral_float hsign hfinite
      · have hnot : ¬ (Number.float x).isFinite := by
          intro hfinite
          have hlt := (Binary64.isFinite_iff x).mp hfinite
          rw [(Binary64.isInf_iff x).mp hinf] at hlt
          exact Nat.lt_irrefl _ hlt
        rwa [literalText, if_neg hnot]

/-! ## Expressions that were read -/

/-- A double that was read from digits has no sign, and is infinite if it is not finite. -/
theorem literalNumber_toFloat {d : Decimal} {mark : Span}
    (h : Numeral mark.text.toList (.float d.toFloat)) : LiteralNumber (.float d.toFloat) mark := by
  have hle := Decimal.nearest_le_infinity d
  refine ⟨Binary64.negative_ofPattern hle, ?_⟩
  rcases Nat.lt_or_eq_of_le hle with hlt | heq
  · left
    rw [Binary64.isFinite_iff, Decimal.toFloat, Binary64.pattern_ofPattern hle]
    exact hlt
  · right
    refine ⟨?_, h⟩
    rw [Binary64.isInf_iff, Decimal.toFloat, Binary64.pattern_ofPattern hle]
    exact heq

theorem literalNumber_ofInt {z : Int} (hfits : Number.Fits z) (h : 0 <= z) (mark : Span) :
    LiteralNumber (.int (Int64.ofInt z)) mark := by
  change 0 <= (Int64.ofInt z).toInt
  rwa [Int64.toInt_ofInt_of_le hfits.1 hfits.2]

theorem literalNumber_of_numeral {mark : Span} {value : Number}
    (h : Numeral mark.text.toList value) : LiteralNumber value mark := by
  generalize hcs : mark.text.toList = cs at h
  cases h with
  | whole hne hdigits =>
      have hnumeral := Numeral.whole hne hdigits
      cases Classical.em (Number.Fits (Nat.ofDigitChars 10 cs 0)) with
      | inl hfits =>
          rw [wholeNumber_of_fits hfits]
          exact literalNumber_ofInt hfits (Int.natCast_nonneg _) mark
      | inr hfits =>
          rw [wholeNumber_of_not_fits hfits] at hnumeral ⊢
          exact literalNumber_toFloat (hcs ▸ hnumeral)
  | point hne hwhole hfraction =>
      have hnumeral := Numeral.point hne hwhole hfraction
      rw [pointNumber] at hnumeral ⊢
      exact literalNumber_toFloat (hcs ▸ hnumeral)

theorem writable_binary {ls rs : List Token} {t : Token} {left right : Expr}
    (hts : ∀ u ∈ ls ++ t :: rs, Lexical u) (hleft : (∀ u ∈ ls, Lexical u) -> left.Writable)
    (hright : (∀ u ∈ rs, Lexical u) -> right.Writable) : left.Writable ∧ right.Writable := by
  rw [List.forall_mem_append, List.forall_mem_cons] at hts
  exact ⟨hleft hts.1, hright hts.2.2⟩

/-- The tree of a derivation from scanned tokens is writable. -/
theorem writable_of_derives {symbol : Parse.Symbol} {ts : List Token} {tree : Expr}
    (h : Parse.Derives symbol ts tree) (hts : ∀ t ∈ ts, Lexical t) : tree.Writable := by
  induction h with
  | assign hvalue ih =>
      simp only [List.forall_mem_cons] at hts
      obtain ⟨-, ⟨grows, hlexeme⟩, -, hrest⟩ := hts
      exact ⟨hlexeme.isIdentifier, ih hrest⟩
  | expression h ih => exact ih hts
  | sum h ih => exact ih hts
  | addition hop hleft hright ihleft ihright => exact writable_binary hts ihleft ihright
  | product h ih => exact ih hts
  | multiplication hop hleft hright ihleft ihright => exact writable_binary hts ihleft ihright
  | plus h ih => exact ih (List.forall_mem_cons.mp hts).2
  | minus h ih => exact ih (List.forall_mem_cons.mp hts).2
  | factor h ih => exact ih hts
  | power h ih => exact ih hts
  | exponentiation hleft hright ihleft ihright => exact writable_binary hts ihleft ihright
  | literal =>
      obtain ⟨grows, hlexeme⟩ := hts _ (List.mem_singleton.mpr rfl)
      exact literalNumber_of_numeral hlexeme.numeral_of_literal
  | access =>
      obtain ⟨grows, hlexeme⟩ := hts _ (List.mem_singleton.mpr rfl)
      exact hlexeme.isIdentifier
  | paren h ih =>
      rw [List.forall_mem_append, List.forall_mem_cons] at hts
      exact ih hts.1.2

theorem parse_of_scans_iff {source : Source} {us : List Token} {q : Position} {tree : Expr}
    (h : Scans source .zero source.text.toList (us ++ [⟨.eof, .point source q⟩])) :
    Expr.parse (us ++ [⟨.eof, .point source q⟩]) = .ok tree ↔
      Parse.Derives .expression us tree := by
  obtain ⟨us', q', heq, -, hlocated⟩ := h.located (Source.at_zero source)
  obtain ⟨rfl, -⟩ := List.append_inj' heq rfl
  have hus : ∀ t ∈ us, t.kind ≠ .eof := fun t ht => (hlocated t ht).lexical.kind_ne_eof
  rw [parse_eq_ok_iff]
  exact Parse.ofTokens_append_eof_iff hus rfl

/-- Every expression that is read from a source is writable. -/
theorem writable_of_parse {s : Source} {tokens : List Token} {tree : Expr}
    (hscan : s.scan = .ok tokens) (hparse : Expr.parse tokens = .ok tree) : tree.Writable := by
  have hscans := Source.scan_eq_ok_iff.mp hscan
  obtain ⟨us, q, rfl, -, hlocated⟩ := hscans.located (Source.at_zero s)
  exact writable_of_derives ((parse_of_scans_iff hscans).mp hparse)
    fun t ht => (hlocated t ht).lexical

end Expr

end Abacus
