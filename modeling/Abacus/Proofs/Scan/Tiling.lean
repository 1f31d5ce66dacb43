import Mathlib
import Abacus.Proofs.Parse.Machine
import Abacus.Proofs.Scan.Concat

/-!
# Tokens tile their source

The spans of the tokens follow each other with nothing but blanks between them, so that
the text can be put together from them again.
-/

namespace Abacus

namespace Scan

variable {s : Source} {p : Position} {cs : List Char} {ts : List Token}

/-! ## The order of tokens -/

def Before (t u : Token) : Prop :=
  t.span.stop.offset <= u.span.start.offset

theorem Scans.offset_le (h : Scans s p cs ts) : ∀ t ∈ ts, p.offset <= t.span.start.offset := by
  induction h with
  | done p =>
      intro t ht
      rw [List.mem_singleton.mp ht]
      exact Nat.le_refl _
  | blank h next ih =>
      intro t ht
      have hle := ih t ht
      rw [Position.advance_offset] at hle
      omega
  | token lexeme apart next ih =>
      intro t ht
      rcases List.mem_cons.mp ht with rfl | ht
      · exact Nat.le_refl _
      · have hle := ih t ht
        rw [Position.advanceAll_offset] at hle
        omega

theorem Scans.pairwise (h : Scans s p cs ts) : ts.Pairwise Before := by
  induction h with
  | done p => exact List.pairwise_singleton ..
  | blank h next ih => exact ih
  | token lexeme apart next ih => exact List.pairwise_cons.mpr ⟨fun t ht => next.offset_le t ht, ih⟩

/-- A character that no token covers is a blank. -/
theorem Scans.isBlank_of_uncovered (h : Scans s p cs ts) {i : Nat} {c : Char}
    (hc : cs[i]? = some c)
    (hcover : ∀ t ∈ ts,
      ¬ (t.span.start.offset <= p.offset + i ∧ p.offset + i < t.span.stop.offset)) :
    isBlank c := by
  induction h generalizing i with
  | done p => cases hc
  | @blank p d cs ts hd next ih =>
      cases i with
      | zero =>
          cases hc
          exact hd
      | succ i =>
          apply ih hc
          intro t ht
          rw [Position.advance_offset, Nat.add_assoc, Nat.add_comm 1 i]
          exact hcover t ht
  | @token p cs rest kind grows ts lexeme apart next ih =>
      have hfirst := hcover _ (List.mem_cons_self ..)
      simp only [Span.within_start, Span.within_stop, Position.advanceAll_offset] at hfirst
      have hi : cs.length <= i := by omega
      rw [List.getElem?_append_right hi] at hc
      apply ih hc
      intro t ht
      rw [Position.advanceAll_offset, Nat.add_assoc, Nat.add_sub_cancel' hi]
      exact hcover t (List.mem_cons_of_mem _ ht)

/-! ## Putting the text together again -/

/-- The gaps before the tokens and the texts of the tokens, from a position of a source on. -/
def assemble (s : Source) (p : Position) : List Token -> String
  | [] => ""
  | t :: ts => (Span.within s p t.span.start).text ++ (t.span.text ++ assemble s t.span.stop ts)

theorem text_point (s : Source) (p : Position) : (Span.point s p).text = "" := by
  simp [Span.point, Span.text]

/-- From a position before the cursor, the gap that the scan has skipped comes first. -/
theorem Scans.assemble_eq {q : Position} {gap : List Char} (h : Scans s q cs ts)
    (hp : s.At p (gap ++ cs)) (hq : p.advanceAll gap = q) :
    assemble s p ts = String.ofList (gap ++ cs) := by
  have hgap := Source.text_advanceAll hp.remaining_eq
  rw [hq] at hgap
  induction h generalizing p gap with
  | done q =>
      change (Span.within s p q).text ++ ((Span.point s q).text ++ "") = _
      rw [hgap, text_point, List.append_nil, String.append_empty, String.append_empty]
  | @blank q c cs ts hc next ih =>
      have hp' : s.At p ((gap ++ [c]) ++ cs) := by rwa [List.append_assoc]
      have hq' : p.advanceAll (gap ++ [c]) = q.advance c := by
        rw [Position.advanceAll_append, hq]
        rfl
      have hgap' := Source.text_advanceAll hp'.remaining_eq
      rw [hq'] at hgap'
      rw [ih hp' hq' hgap', List.append_assoc, List.singleton_append]
  | @token q cs rest kind grows ts lexeme apart next ih =>
      have hat : s.At q (cs ++ rest) := hq ▸ hp.advanceAll
      have hnext : s.At (q.advanceAll cs) ([] ++ rest) := hat.advanceAll
      have hrest := ih hnext rfl (text_point s (q.advanceAll cs))
      change (Span.within s p q).text ++ ((Span.within s q (q.advanceAll cs)).text ++
        assemble s (q.advanceAll cs) ts) = _
      rw [hgap, Source.text_advanceAll hat.remaining_eq, hrest, List.nil_append,
        String.ofList_append, String.ofList_append]

/-! ## Scanning a single token again -/

/-- The text of a token is scanned as that token. -/
theorem Lexical.scan_text {t : Token} (h : Lexical t) (file : String) :
    ∃ mark stop, Source.scan ⟨file, t.span.text⟩ = .ok [⟨t.kind, mark⟩, ⟨.eof, stop⟩] := by
  obtain ⟨grows, hlexeme⟩ := h
  exact ⟨_, _, Source.scan_eq_ok_iff.mpr (hlexeme.scans ⟨file, t.span.text⟩ .zero)⟩

/-! ## Where a scan fails -/

theorem tokens_error {e : Error} (h : tokens s p cs = .error e) (hp : s.At p cs) :
    ∃ q c rest more, s.At q (c :: rest) ∧ front c rest = .fault e.cause more ∧
      e.span = .within s q (q.advanceAll (c :: rest.take more)) := by
  obtain ⟨before, c, rest, more, ts, rfl, -, hfront, hspan⟩ := passes_of_error h
  exact ⟨p.advanceAll before, c, rest, more, hp.advanceAll, hfront, hspan⟩

theorem proper_of_error {e : Error} (h : tokens s p cs = .error e) (hp : s.At p cs) :
    e.span.Proper s := by
  obtain ⟨q, c, rest, more, hq, -, hspan⟩ := tokens_error h hp
  have hsplit : c :: rest = (c :: rest.take more) ++ rest.drop more := by simp
  rw [hsplit] at hq
  rw [hspan]
  exact hq.proper (List.cons_ne_nil _ _)

theorem text_of_illegal {e : Error} {c : Char} (h : tokens s p cs = .error e) (hp : s.At p cs)
    (hcause : e.cause = .illegal c) : e.span.text = c.toString := by
  obtain ⟨q, d, rest, more, hq, hfront, hspan⟩ := tokens_error h hp
  rw [hcause] at hfront
  rcases front_eq_fault hfront with ⟨-, -, hbang, -⟩ | ⟨-, -, -, hillegal, rfl⟩
  · cases hbang
  · cases hillegal
    have hq' : s.At q ([c] ++ rest) := hq
    rw [hspan, List.take_zero, Source.text_advanceAll hq'.remaining_eq]
    rfl

end Scan

/-! ## The tokens of a source -/

namespace Source

/-- What is known of the tokens of a source. -/
structure Tiled (s : Source) (ts : List Token) : Prop where
  /-- The last token, and no other, is the end of the input; it is empty. -/
  ends : ∃ us q, ts = us ++ [⟨.eof, .point s q⟩] ∧ q.offset = s.text.length ∧
    ∀ t ∈ us, t.kind ≠ .eof
  /-- The parser does not miss the end of the input. -/
  ended : ∀ d, Expr.parse ts = .error d -> d.message ≠ Parse.Expected.endOfInput.message
  start_lt : ∀ t ∈ ts, t.kind ≠ .eof -> t.span.start.offset < t.span.stop.offset
  /-- The tokens come in the order of their spans, which do not overlap. -/
  ordered : ts.Pairwise fun t u => t.span.stop.offset <= u.span.start.offset
  /-- What no token covers is a space or a tab. -/
  blank : ∀ i c, s.text.toList[i]? = some c ->
    (∀ t ∈ ts, ¬ (t.span.start.offset <= i ∧ i < t.span.stop.offset)) -> c = ' ' ∨ c = '\t'
  assembled : Scan.assemble s .zero ts = s.text
  /-- The text of a single token is scanned as that token. -/
  again : ∀ t ∈ ts, t.kind ≠ .eof -> ∀ file, ∃ mark stop,
    Source.scan ⟨file, t.span.text⟩ = .ok [⟨t.kind, mark⟩, ⟨.eof, stop⟩]
  placed : ∀ t ∈ ts, t.span.Placed s

variable {s : Source} {us : List Token} {q : Position}

theorem located_of_ne_eof (hus : ∀ t ∈ us, Scan.Located s t) :
    ∀ t ∈ us ++ [⟨.eof, .point s q⟩], t.kind ≠ .eof -> Scan.Located s t := by
  intro t ht hkind
  rcases List.mem_append.mp ht with ht | ht
  · exact hus t ht
  · rw [List.mem_singleton.mp ht] at hkind
    exact absurd rfl hkind

theorem placed_of_located (hus : ∀ t ∈ us, Scan.Located s t) (hq : s.At q []) :
    ∀ t ∈ us ++ [⟨.eof, .point s q⟩], t.span.Placed s := by
  intro t ht
  rcases List.mem_append.mp ht with ht | ht
  · exact (hus t ht).proper.toPlaced
  · have hp : s.At q ([] ++ []) := hq
    rw [List.mem_singleton.mp ht]
    exact hp.placed

theorem blank_of_scans {ts : List Token} (h : Scan.Scans s .zero s.text.toList ts) {i : Nat}
    {c : Char} (hc : s.text.toList[i]? = some c)
    (hcover : ∀ t ∈ ts, ¬ (t.span.start.offset <= i ∧ i < t.span.stop.offset)) :
    c = ' ' ∨ c = '\t' := by
  apply Scan.isBlank_iff.mp
  apply h.isBlank_of_uncovered hc
  intro t ht
  rw [show Position.zero.offset + i = i from Nat.zero_add i]
  exact hcover t ht

theorem assemble_of_scans {ts : List Token} (h : Scan.Scans s .zero s.text.toList ts) :
    Scan.assemble s .zero ts = s.text := by
  have hp : s.At .zero ([] ++ s.text.toList) := s.at_zero
  rw [h.assemble_eq hp rfl, List.nil_append, String.ofList_toList]

/--
The tokens of a source tile it.  A source that cannot be scanned has its error at
positions of that source.
-/
theorem scan_tiles (s : Source) :
    (∀ ts, s.scan = .ok ts -> s.Tiled ts) ∧ ∀ d, s.scan = .error d -> d.span.Placed s := by
  constructor
  · intro ts hscan
    have hscans := scan_eq_ok_iff.mp hscan
    obtain ⟨us, q, rfl, hq, hus⟩ := hscans.located s.at_zero
    have hlocated := located_of_ne_eof (q := q) hus
    exact {
      ends := ⟨us, q, rfl, hq.offset_add, fun t ht => (hus t ht).lexical.kind_ne_eof⟩
      ended := fun d => Parse.message_ne_endOfInput (Expr.ended_concat us _)
      start_lt := fun t ht hkind => (hlocated t ht hkind).proper.start_lt
      ordered := hscans.pairwise
      blank := fun i c => blank_of_scans hscans
      assembled := assemble_of_scans hscans
      again := fun t ht hkind => (hlocated t ht hkind).lexical.scan_text
      placed := placed_of_located hus hq }
  · intro d hscan
    obtain ⟨e, he, rfl⟩ := mapError_eq_error_iff.mp hscan
    exact (Scan.proper_of_error he s.at_zero).toPlaced

/-- A stretch of the text `x \t==(y`. -/
def comparison (start stop : Nat) : Span :=
  .within ⟨"text", "x \t==(y"⟩ ⟨start, 0, start⟩ ⟨stop, 0, stop⟩

/-- Two blanks in a row, and tokens without any between them. -/
theorem scan_tiles_comparison :
    Tiled ⟨"text", "x \t==(y"⟩
      [⟨.identifier "x", comparison 0 1⟩, ⟨.comparison .equal, comparison 3 5⟩,
        ⟨.leftParen, comparison 5 6⟩, ⟨.identifier "y", comparison 6 7⟩,
        ⟨.eof, comparison 7 7⟩] := by
  have hscan : Source.scan ⟨"text", "x \t==(y"⟩ = .ok
      [⟨.identifier "x", comparison 0 1⟩, ⟨.comparison .equal, comparison 3 5⟩,
        ⟨.leftParen, comparison 5 6⟩, ⟨.identifier "y", comparison 6 7⟩,
        ⟨.eof, comparison 7 7⟩] := by
    cbv
  exact (scan_tiles _).1 _ hscan

end Source

end Abacus
