import Abacus.Expr.Read
import Abacus.Proofs.Scan.Lexeme

/-!
# The tokens of a text

Scanning as a relation: blanks are skipped, and every other stretch of the text is a
lexeme that stands before a rest that does not make it longer.  A token carries the
span of its lexeme, and the text of that span is the lexeme.

The scan keeps a cursor, which is a position of the source together with the characters
that are left from there.  Every position that it hands out is one that the cursor had.
-/

namespace Abacus

/-! ## What remains of a source -/

namespace Source

def remaining (s : Source) (p : Position) : List Char :=
  s.text.toList.drop p.offset

@[simp] theorem remaining_zero (s : Source) : s.remaining .zero = s.text.toList :=
  rfl

variable {s : Source} {p : Position} {cs rest : List Char}

theorem remaining_advanceAll (h : s.remaining p = cs ++ rest) :
    s.remaining (p.advanceAll cs) = rest := by
  rw [remaining, Position.advanceAll_offset, ← List.drop_drop]
  rw [remaining] at h
  rw [h, List.drop_left]

theorem remaining_advance {c : Char} (h : s.remaining p = c :: rest) :
    s.remaining (p.advance c) = rest :=
  remaining_advanceAll (show s.remaining p = [c] ++ rest from h)

theorem text_advanceAll (h : s.remaining p = cs ++ rest) :
    (Span.within s p (p.advanceAll cs)).text = String.ofList cs := by
  rw [remaining] at h
  rw [Span.text, Span.within_source, Span.within_start, Span.within_stop, h,
    Position.advanceAll_offset, Nat.add_sub_cancel_left, List.take_left]

/-! ## The cursor -/

/-- A position that is reached over the first characters of a source, with those that are left. -/
def At (s : Source) (p : Position) (cs : List Char) : Prop :=
  ∃ before, s.text.toList = before ++ cs ∧ p = Position.zero.advanceAll before

variable {as : List Char}

theorem at_zero (s : Source) : s.At .zero s.text.toList :=
  ⟨[], rfl, rfl⟩

namespace At

theorem advanceAll (h : s.At p (as ++ cs)) : s.At (p.advanceAll as) cs := by
  obtain ⟨before, htext, rfl⟩ := h
  refine ⟨before ++ as, ?_, (Position.advanceAll_append _ before as).symm⟩
  rw [htext, List.append_assoc]

theorem advance {c : Char} (h : s.At p (c :: cs)) : s.At (p.advance c) cs :=
  advanceAll (show s.At p ([c] ++ cs) from h)

theorem remaining_eq (h : s.At p cs) : s.remaining p = cs := by
  obtain ⟨before, htext, rfl⟩ := h
  simp [remaining, htext, Position.zero]

theorem positionAt_eq (h : s.At p cs) : s.positionAt p.offset = p := by
  obtain ⟨before, htext, rfl⟩ := h
  simp [positionAt, htext, Position.zero]

theorem offset_add (h : s.At p cs) : p.offset + cs.length = s.text.length := by
  obtain ⟨before, htext, rfl⟩ := h
  rw [← String.length_toList, htext]
  simp [Position.zero]

end At

end Source

namespace Span

/-- A span between two positions of a source, which belong to their offsets. -/
structure Placed (s : Source) (span : Span) : Prop where
  source_eq : span.source = s
  stopSource_eq : span.stopSource = s
  start_eq : span.start = s.positionAt span.start.offset
  stop_eq : span.stop = s.positionAt span.stop.offset
  start_le : span.start.offset <= span.stop.offset
  stop_le : span.stop.offset <= s.text.length

structure Proper (s : Source) (span : Span) : Prop extends Placed s span where
  start_lt : span.start.offset < span.stop.offset

end Span

theorem Source.At.placed {s : Source} {p : Position} {as cs : List Char} (h : s.At p (as ++ cs)) :
    Span.Placed s (.within s p (p.advanceAll as)) where
  source_eq := rfl
  stopSource_eq := rfl
  start_eq := h.positionAt_eq.symm
  stop_eq := h.advanceAll.positionAt_eq.symm
  start_le := by simp
  stop_le := Nat.le.intro h.advanceAll.offset_add

theorem Source.At.proper {s : Source} {p : Position} {as cs : List Char} (h : s.At p (as ++ cs))
    (has : as ≠ []) : Span.Proper s (.within s p (p.advanceAll as)) where
  toPlaced := h.placed
  start_lt := by
    have hlength := List.length_pos_iff.mpr has
    simp only [Span.within_start, Span.within_stop, Position.advanceAll_offset]
    omega

namespace Scan

/-! ## Scanning as a relation -/

/-- The tokens of the text that starts at a position of a source. -/
inductive Scans (source : Source) : Position -> List Char -> List Token -> Prop where
  | done (p : Position) : Scans source p [] [⟨.eof, .point source p⟩]
  | blank {p : Position} {c : Char} {cs : List Char} {ts : List Token} (h : isBlank c)
      (next : Scans source (p.advance c) cs ts) : Scans source p (c :: cs) ts
  | token {p : Position} {cs rest : List Char} {kind : Token.Kind} {grows : Char -> Bool}
      {ts : List Token} (lexeme : Lexeme cs kind grows) (apart : Apart grows rest)
      (next : Scans source (p.advanceAll cs) rest ts) :
      Scans source p (cs ++ rest) (⟨kind, .within source p (p.advanceAll cs)⟩ :: ts)

variable {source : Source} {p : Position} {cs : List Char} {ts : List Token}

theorem Lexeme.ne_nil {kind : Token.Kind} {grows : Char -> Bool} (h : Lexeme cs kind grows) :
    cs ≠ [] := by
  cases h with
  | numeral h =>
      cases h with
      | whole hne => exact hne
      | point hne => exact List.append_ne_nil_of_left_ne_nil hne _
  | word h =>
      cases h with
      | mk => exact List.cons_ne_nil _ _
  | symbol => exact List.cons_ne_nil _ _
  | withEquals => exact List.cons_ne_nil _ _

theorem tokens_blank {c : Char} (h : isBlank c) :
    tokens source p (c :: cs) = tokens source (p.advance c) cs := by
  rw [tokens, front_eq_blank_iff.mpr h]

theorem tokens_lexeme {kind : Token.Kind} {grows : Char -> Bool} {rest : List Char}
    (lexeme : Lexeme cs kind grows) (apart : Apart grows rest) :
    tokens source p (cs ++ rest) = (tokens source (p.advanceAll cs) rest).map
      (⟨kind, .within source p (p.advanceAll cs)⟩ :: ·) := by
  cases cs with
  | nil => exact absurd rfl lexeme.ne_nil
  | cons c ds =>
      rw [List.cons_append, tokens, front_of_lexeme lexeme apart]
      simp only [List.take_left, List.drop_left]
      cases tokens source (p.advanceAll (c :: ds)) rest <;> rfl

theorem Scans.tokens_eq (h : Scans source p cs ts) : tokens source p cs = .ok ts := by
  induction h with
  | done p =>
      rw [tokens]
  | blank h next ih =>
      rw [tokens_blank h, ih]
  | token lexeme apart next ih =>
      rw [tokens_lexeme lexeme apart, ih]
      rfl

theorem scans_of_tokens (h : tokens source p cs = .ok ts) : Scans source p cs ts := by
  fun_induction tokens source p cs generalizing ts with
  | case1 p =>
      cases h
      exact .done p
  | case2 p c cs hfront ih =>
      exact .blank (front_eq_blank_iff.mp hfront) (ih h)
  | case3 p c cs kind more hfront stop rest hrest =>
      rename_i ih
      cases h
      cases front_eq_token_iff.mp hfront with
      | @mk ds rest grows lexeme apart =>
          have hstop : stop = p.advanceAll (c :: ds) := by
            simp only [stop, List.take_left]
          have hnext := ih hrest
          rw [List.drop_left, hstop] at hnext
          rw [hstop]
          exact .token lexeme apart hnext
  | case4 p c cs kind more hfront stop e hrest =>
      cases h
  | case5 p c cs cause more hfront =>
      cases h

theorem tokens_eq_ok_iff : tokens source p cs = .ok ts ↔ Scans source p cs ts :=
  ⟨scans_of_tokens, Scans.tokens_eq⟩

theorem Lexeme.scans {kind : Token.Kind} {grows : Char -> Bool} (h : Lexeme cs kind grows)
    (source : Source) (p : Position) :
    Scans source p cs [⟨kind, .within source p (p.advanceAll cs)⟩,
      ⟨.eof, .point source (p.advanceAll cs)⟩] := by
  have hscans : Scans source p (cs ++ []) _ := .token h (apart_nil grows) (.done _)
  rwa [List.append_nil] at hscans

/-! ## Tokens and their texts -/

def Lexical (t : Token) : Prop :=
  ∃ grows, Lexeme t.span.text.toList t.kind grows

theorem Lexical.kind_ne_eof {t : Token} (h : Lexical t) : t.kind ≠ .eof := by
  obtain ⟨grows, hlexeme⟩ := h
  intro hkind
  rw [hkind] at hlexeme
  exact hlexeme.ne_eof

/-- A token with the place, the extent and the text that the scan gives it. -/
structure Located (s : Source) (t : Token) : Prop where
  proper : t.span.Proper s
  lexical : Lexical t

/-- The tokens of a scan are located, up to the end of the input at the end of the text. -/
theorem Scans.located (h : Scans source p cs ts) (hp : source.At p cs) :
    ∃ us q, ts = us ++ [⟨.eof, .point source q⟩] ∧ source.At q [] ∧
      ∀ t ∈ us, Located source t := by
  induction h with
  | done p => exact ⟨[], p, rfl, hp, nofun⟩
  | blank h next ih => exact ih hp.advance
  | @token p cs rest kind grows ts lexeme apart next ih =>
      obtain ⟨us, q, rfl, hq, hus⟩ := ih hp.advanceAll
      refine ⟨_ :: us, q, rfl, hq, ?_⟩
      intro t ht
      rcases List.mem_cons.mp ht with rfl | ht
      · refine ⟨hp.proper lexeme.ne_nil, grows, ?_⟩
        rw [Source.text_advanceAll hp.remaining_eq, String.toList_ofList]
        exact lexeme
      · exact hus t ht

end Scan

theorem Source.scan_eq_ok_iff {s : Source} {ts : List Token} :
    s.scan = .ok ts ↔ Scan.Scans s .zero s.text.toList ts := by
  rw [← Scan.tokens_eq_ok_iff, Source.scan, Source.tokens, mapError_eq_ok_iff]

end Abacus
