import Mathlib
import Abacus.Proofs.Scan.Tokens

/-!
# Texts in a row

The tokens of a stretch of text do not depend on where it stands, and of what follows it
only the first character matters.  So texts with a blank between them are scanned one by
one, and a scan that fails has passed everything before its error.
-/

namespace Abacus

/-! ## The same text at another place -/

structure Span.Moved (n : Nat) (a b : Span) : Prop where
  start_eq : b.start.offset = a.start.offset + n
  stop_eq : b.stop.offset = a.stop.offset + n

structure Token.Moved (n : Nat) (t u : Token) : Prop where
  kind_eq : u.kind = t.kind
  span : t.span.Moved n u.span

def Token.within (source : Source) (t : Token) : Token :=
  ⟨t.kind, .within source t.span.start t.span.stop⟩

namespace Scan

/-- The same tokens or the same error, `n` characters further on. -/
inductive Moved (n : Nat) :
    Except Error (List Token) -> Except Error (List Token) -> Prop where
  | ok {ts us : List Token} (tokens : List.Forall₂ (Token.Moved n) ts us) :
      Moved n (.ok ts) (.ok us)
  | error {cause : Cause} {a b : Span} (span : a.Moved n b) :
      Moved n (.error ⟨cause, a⟩) (.error ⟨cause, b⟩)

theorem moved_advanceAll {p q : Position} {n : Nat} (h : q.offset = p.offset + n)
    (cs : List Char) : (q.advanceAll cs).offset = (p.advanceAll cs).offset + n := by
  rw [Position.advanceAll_offset, Position.advanceAll_offset]
  omega

theorem moved_tokens (s t : Source) {p q : Position} {n : Nat} (h : q.offset = p.offset + n)
    (cs : List Char) : Moved n (tokens s p cs) (tokens t q cs) := by
  fun_induction tokens s p cs generalizing q with
  | case1 p =>
      rw [tokens]
      exact .ok (.cons ⟨rfl, h, h⟩ .nil)
  | case2 p c cs hfront ih =>
      rw [tokens, hfront]
      exact ih (moved_advanceAll h [c])
  | case3 p c cs kind more hfront stop rest hrest =>
      rename_i ih
      have hstop := moved_advanceAll h (c :: cs.take more)
      have hnext := ih hstop
      rw [hrest] at hnext
      rw [tokens, hfront]
      dsimp only
      generalize tokens t _ (cs.drop more) = result at hnext ⊢
      cases hnext with
      | ok hrest => exact .ok (.cons ⟨rfl, h, hstop⟩ hrest)
  | case4 p c cs kind more hfront stop e hrest =>
      rename_i ih
      have hnext := ih (moved_advanceAll h (c :: cs.take more))
      rw [hrest] at hnext
      rw [tokens, hfront]
      dsimp only
      generalize tokens t _ (cs.drop more) = result at hnext ⊢
      cases hnext with
      | error hspan => exact .error hspan
  | case5 p c cs cause more hfront =>
      rw [tokens, hfront]
      exact .error ⟨h, moved_advanceAll h _⟩

/-! ## A stretch of text before a character -/

/-- The tokens of a stretch of text that stands before the character `c` or at the end. -/
inductive Passes (source : Source) (c : Char) : Position -> List Char -> List Token -> Prop where
  | done (p : Position) : Passes source c p [] []
  | blank {p : Position} {d : Char} {cs : List Char} {ts : List Token} (h : isBlank d)
      (next : Passes source c (p.advance d) cs ts) : Passes source c p (d :: cs) ts
  | token {p : Position} {cs rest : List Char} {kind : Token.Kind} {grows : Char -> Bool}
      {ts : List Token} (lexeme : Lexeme cs kind grows) (apart : Apart grows (rest ++ [c]))
      (next : Passes source c (p.advanceAll cs) rest ts) :
      Passes source c p (cs ++ rest) (⟨kind, .within source p (p.advanceAll cs)⟩ :: ts)

variable {source : Source} {p : Position} {c : Char} {cs rest : List Char} {ts : List Token}
  {kind : Token.Kind} {grows : Char -> Bool}

theorem tokens_fault {cause : Cause} {more : Nat} (h : front c cs = .fault cause more) :
    tokens source p (c :: cs) =
      .error ⟨cause, .within source p (p.advanceAll (c :: cs.take more))⟩ := by
  rw [tokens, h]

theorem Apart.append {as bs : List Char} (has : Apart grows as) (hbs : Apart grows bs) :
    Apart grows (as ++ bs) := by
  cases as with
  | nil => exact hbs
  | cons a as => exact has

theorem Apart.of_head {as bs : List Char} (h : Apart grows (as ++ bs))
    (hrest : ∀ d ∈ rest.head?, d ∈ bs.head?) : Apart grows (as ++ rest) := by
  cases as with
  | nil => exact fun d hd => h d (hrest d hd)
  | cons a as => exact h

namespace Passes

/-- What comes after a stretch is scanned as if it stood alone. -/
theorem tokens_append (h : Passes source c p cs ts) (hrest : ∀ d ∈ rest.head?, d ∈ [c].head?) :
    tokens source p (cs ++ rest) = (tokens source (p.advanceAll cs) rest).map (ts ++ ·) := by
  induction h with
  | done p =>
      change _ = Except.map id (tokens source p rest)
      rw [Except.map_id]
      rfl
  | blank h next ih =>
      rw [List.cons_append, tokens_blank h, ih]
      rfl
  | @token p cs after kind grows ts lexeme apart next ih =>
      rw [List.append_assoc, tokens_lexeme lexeme (apart.of_head hrest), ih,
        Position.advanceAll_append]
      cases tokens source ((p.advanceAll cs).advanceAll after) rest <;> rfl

theorem tokens_append_cons (h : Passes source c p cs ts) (rest : List Char) :
    tokens source p (cs ++ c :: rest) =
      (tokens source (p.advanceAll cs) (c :: rest)).map (ts ++ ·) :=
  h.tokens_append fun _ hd => hd

theorem tokens_eq (h : Passes source c p cs ts) :
    tokens source p cs = .ok (ts ++ [⟨.eof, .point source (p.advanceAll cs)⟩]) := by
  have hall := h.tokens_append (show ∀ d ∈ [].head?, d ∈ [c].head? from nofun)
  rw [List.append_nil, tokens] at hall
  exact hall

theorem within (h : Passes source c p cs ts) (s : Source) :
    Passes s c p cs (ts.map (Token.within s)) := by
  induction h with
  | done p => exact .done p
  | blank h next ih => exact .blank h ih
  | token lexeme apart next ih => exact .token lexeme apart ih

end Passes

theorem Lexeme.grows_blank (h : Lexeme cs kind grows) (hc : isBlank c) : grows c = false := by
  rcases isBlank_iff.mp hc with rfl | rfl <;> cases h <;> simp [goesOn, isWordChar]

theorem Scans.ne_nil (h : Scans source p cs ts) : ts ≠ [] := by
  induction h with
  | done p => exact List.cons_ne_nil _ _
  | blank h next ih => exact ih
  | token lexeme apart next ih => exact List.cons_ne_nil _ _

theorem Scans.passes (h : Scans source p cs ts) (hc : isBlank c) :
    Passes source c p cs ts.dropLast := by
  induction h with
  | done p => exact .done p
  | blank h next ih => exact .blank h ih
  | @token p cs rest kind grows ts lexeme apart next ih =>
      have hblank : Apart grows [c] := by
        intro d hd
        cases hd
        exact lexeme.grows_blank hc
      rw [List.dropLast_cons_of_ne_nil next.ne_nil]
      exact .token lexeme (apart.append hblank) ih

/-- A scan that fails has passed what stands before its error. -/
theorem passes_of_error {e : Error} (h : tokens source p cs = .error e) :
    ∃ before c rest more ts, cs = before ++ c :: rest ∧ Passes source c p before ts ∧
      front c rest = .fault e.cause more ∧
      e.span = .within source (p.advanceAll before)
        ((p.advanceAll before).advanceAll (c :: rest.take more)) := by
  fun_induction tokens source p cs with
  | case1 p => cases h
  | case2 p d cs hfront ih =>
      obtain ⟨before, c, rest, more, ts, rfl, hpasses, hfault, hspan⟩ := ih h
      exact ⟨d :: before, c, rest, more, ts, rfl, .blank (front_eq_blank_iff.mp hfront) hpasses,
        hfault, hspan⟩
  | case3 p d cs kind more hfront stop rest hrest ih => cases h
  | case4 p d cs kind more hfront stop e' hrest ih =>
      cases h
      cases front_eq_token_iff.mp hfront with
      | @mk ds after grows lexeme apart =>
          obtain ⟨before, c, rest, more, ts, hafter, hpasses, hfault, hspan⟩ := ih hrest
          rw [List.drop_left] at hafter
          have hstop : stop = p.advanceAll (d :: ds) := by simp only [stop, List.take_left]
          rw [hstop] at hpasses hspan
          subst hafter
          have happart : Apart grows (before ++ [c]) := apart.of_head fun _ ha => ha
          refine ⟨d :: ds ++ before, c, rest, more, _, by simp, .token lexeme happart hpasses,
            hfault, ?_⟩
          rw [Position.advanceAll_append]
          exact hspan
  | case5 p c cs cause more hfront =>
      cases h
      exact ⟨[], c, cs, more, [], rfl, .done p, hfront, rfl⟩

theorem front_fault_append {cause : Cause} {more : Nat} (h : front c rest = .fault cause more)
    (hend : c = '!' -> rest ≠ []) (us : List Char) :
    front c (rest ++ us) = .fault cause more ∧ more <= rest.length := by
  have hblank : isBlank c = false := by
    rw [← Bool.not_eq_true, ← front_eq_blank_iff, h]
    exact Front.noConfusion
  rcases front_eq_fault h with ⟨rfl, hhead, rfl, rfl⟩ | ⟨hdigit, halpha, hsymbol, rfl, rfl⟩
  · cases rest with
    | nil => exact absurd rfl (hend rfl)
    | cons d rest =>
        have hd : d ≠ '=' := fun he => hhead (congrArg some he)
        refine ⟨?_, Nat.min_le_right ..⟩
        rw [front_of_symbol? rfl]
        simp [symbol, hd]
  · refine ⟨?_, Nat.zero_le _⟩
    rw [front, hblank, hdigit, halpha, hsymbol]
    rfl

/-- Where a scan has failed, what comes after the error does not matter. -/
theorem moved_of_error {e : Error} (h : tokens source p cs = .error e)
    (hend : e.cause = .equalsAfter '!' -> e.span.start.offset + 1 ≠ p.offset + cs.length)
    (s : Source) (us : List Char) : Moved 0 (.error e) (tokens s p (cs ++ us)) := by
  obtain ⟨before, c, rest, more, ts, rfl, hpasses, hfront, hspan⟩ := passes_of_error h
  have hbang : c = '!' -> rest ≠ [] := by
    rintro rfl rfl
    rcases front_eq_fault hfront with ⟨-, -, hcause, -⟩ | ⟨-, -, hsymbol, -⟩
    · apply hend hcause
      simp [hspan, Nat.add_assoc]
    · cases hsymbol
  obtain ⟨hlonger, hmore⟩ := front_fault_append hfront hbang us
  have htake : (rest ++ us).take more = rest.take more := List.take_append_of_le_length hmore
  rw [List.append_assoc, List.cons_append, (hpasses.within s).tokens_append_cons,
    tokens_fault hlonger, htake]
  obtain ⟨cause, span⟩ := e
  subst hspan
  exact .error ⟨rfl, rfl⟩

end Scan

/-! ## Sources -/

structure Diagnostic.Moved (n : Nat) (d d' : Diagnostic) : Prop where
  kind_eq : d'.kind = d.kind
  message_eq : d'.message = d.message
  span : d.span.Moved n d'.span

namespace Source

/-- Behind a text that can be scanned and a blank, a text is scanned as if it stood alone. -/
theorem tokens_of_blank {s t u : Source} {w : Char} {ts : List Token} (hs : s.tokens = .ok ts)
    (hw : Scan.isBlank w) (htext : u.text.toList = s.text.toList ++ w :: t.text.toList) :
    ∃ result, Scan.Moved (s.text.length + 1) t.tokens result ∧
      u.tokens = result.map (ts.dropLast.map (Token.within u) ++ ·) := by
  have hpasses := ((Scan.scans_of_tokens hs).passes hw).within u
  have hstart : ((Position.zero.advanceAll s.text.toList).advance w).offset =
      Position.zero.offset + (s.text.length + 1) := by
    rw [Position.advance_offset, Position.advanceAll_offset, String.length_toList, Nat.add_assoc]
  refine ⟨_, Scan.moved_tokens t u hstart t.text.toList, ?_⟩
  rw [tokens, htext, hpasses.tokens_append_cons, Scan.tokens_blank hw]

theorem scan_eq_error_iff {s : Source} {d : Diagnostic} :
    s.scan = .error d ↔ ∃ e, s.tokens = .error e ∧ e.diagnostic = d :=
  mapError_eq_error_iff

theorem scan_of_moved {s : Source} {e : Scan.Error} {n : Nat}
    (h : Scan.Moved n (.error e) s.tokens) :
    ∃ moved, e.diagnostic.Moved n moved ∧ s.scan = .error moved := by
  generalize hresult : s.tokens = result at h
  cases h with
  | @error cause span moved hspan =>
      exact ⟨Scan.Error.diagnostic ⟨cause, moved⟩, ⟨rfl, rfl, hspan⟩,
        scan_eq_error_iff.mpr ⟨_, hresult, rfl⟩⟩

theorem scan_before_error {s t : Source} {d : Diagnostic} (h : s.scan = .error d)
    (htext : t.text.toList = s.text.toList.take d.span.start.offset) :
    ∃ ts, t.scan = .ok ts := by
  obtain ⟨e, he, rfl⟩ := scan_eq_error_iff.mp h
  obtain ⟨before, c, rest, more, ts, hall, hpasses, -, hspan⟩ := Scan.passes_of_error he
  have hstart : e.diagnostic.span.start.offset = before.length := by
    change e.span.start.offset = _
    rw [hspan, Span.within_start, Position.advanceAll_offset]
    exact Nat.zero_add _
  have hbefore : t.text.toList = before := by
    rw [htext, hstart, hall, List.take_left]
  have htokens := (hpasses.within t).tokens_eq
  rw [← hbefore] at htokens
  exact ⟨_, mapError_eq_ok_iff.mpr htokens⟩

/-- A scan that fails before the end of the text fails in the same way if the text goes on. -/
theorem scan_after_error {s t : Source} {d : Diagnostic} {us : List Char} (h : s.scan = .error d)
    (hend : ¬ (d.kind = .expectedCharacter ∧ d.span.start.offset + 1 = s.text.length))
    (htext : t.text.toList = s.text.toList ++ us) :
    ∃ same, d.Moved 0 same ∧ t.scan = .error same := by
  obtain ⟨e, he, rfl⟩ := scan_eq_error_iff.mp h
  apply scan_of_moved
  rw [tokens, htext]
  apply Scan.moved_of_error he
  intro hcause hoffset
  apply hend
  refine ⟨congrArg Scan.Cause.kind hcause, hoffset.trans ?_⟩
  rw [String.length_toList]
  exact Nat.zero_add _

/--
Texts with a blank between them are scanned one after the other.  The last token of the first
one, which is the end of the input, is left out.  If the scan of a text fails, the part before
the error can be scanned, and every text that goes on after it fails in the same way, unless
the error is that a `!` ends the text.
-/
theorem scan_concat (file a : String) :
    (∀ ts, scan ⟨file, a⟩ = .ok ts -> ∀ w, w = ' ' ∨ w = '\t' -> ∀ b,
      (∀ us, scan ⟨file, b⟩ = .ok us ->
        ∃ moved, List.Forall₂ (Token.Moved (a.length + 1)) us moved ∧
          scan ⟨file, a ++ w.toString ++ b⟩ =
            .ok (ts.dropLast.map (Token.within ⟨file, a ++ w.toString ++ b⟩) ++ moved)) ∧
      ∀ d, scan ⟨file, b⟩ = .error d ->
        ∃ moved, d.Moved (a.length + 1) moved ∧
          scan ⟨file, a ++ w.toString ++ b⟩ = .error moved) ∧
    ∀ d, scan ⟨file, a⟩ = .error d ->
      (∃ ts, scan ⟨file, String.ofList (a.toList.take d.span.start.offset)⟩ = .ok ts) ∧
      (¬ (d.kind = .expectedCharacter ∧ d.span.start.offset + 1 = a.length) ->
        ∀ u, ∃ same, d.Moved 0 same ∧ scan ⟨file, a ++ u⟩ = .error same) := by
  constructor
  · intro ts hts w hw b
    have htext : (a ++ w.toString ++ b).toList = a.toList ++ w :: b.toList := by
      simp [Char.toString]
    obtain ⟨result, hmoved, hall⟩ := tokens_of_blank (t := ⟨file, b⟩)
      (u := ⟨file, a ++ w.toString ++ b⟩) (mapError_eq_ok_iff.mp hts) (Scan.isBlank_iff.mpr hw) htext
    constructor
    · intro us hus
      rw [mapError_eq_ok_iff.mp hus] at hmoved
      cases hmoved with
      | ok hmoved => exact ⟨_, hmoved, mapError_eq_ok_iff.mpr hall⟩
    · intro d hd
      obtain ⟨e, he, rfl⟩ := scan_eq_error_iff.mp hd
      rw [he] at hmoved
      apply scan_of_moved
      cases hmoved with
      | error hspan =>
          rw [hall]
          exact .error hspan
  · intro d hd
    refine ⟨scan_before_error hd (String.toList_ofList ..), fun hend u => ?_⟩
    exact scan_after_error hd hend (String.toList_append ..)

def stretch (text : String) (start stop : Nat) : Span :=
  .within ⟨"text", text⟩ ⟨start, 0, start⟩ ⟨stop, 0, stop⟩

/-- The report of a `!` that is not followed by an equals sign. -/
def lonelyBang (span : Span) : Diagnostic :=
  ⟨.expectedCharacter, "'=' (after '!')", span, []⟩

/-- A `!` fails wherever it stands, and for good if the text goes on with another character. -/
theorem scan_concat_bang :
    (∃ moved, (lonelyBang (stretch "!" 0 1)).Moved 2 moved ∧
      scan ⟨"text", "x\t!"⟩ = .error moved) ∧
    ∃ same, (lonelyBang (stretch "x!y" 1 3)).Moved 0 same ∧
      scan ⟨"text", "x!y=1"⟩ = .error same := by
  have hx : scan ⟨"text", "x"⟩ =
      .ok [⟨.identifier "x", stretch "x" 0 1⟩, ⟨.eof, stretch "x" 1 1⟩] := by cbv
  have hlast : scan ⟨"text", "!"⟩ = .error (lonelyBang (stretch "!" 0 1)) := by cbv
  have hinner : scan ⟨"text", "x!y"⟩ = .error (lonelyBang (stretch "x!y" 1 3)) := by cbv
  constructor
  · exact ((scan_concat "text" "x").1 _ hx '\t' (.inr rfl) "!").2 _ hlast
  · exact ((scan_concat "text" "x!y").2 _ hinner).2 (fun hend => absurd hend.2 (by decide)) "=1"

end Source

end Abacus
