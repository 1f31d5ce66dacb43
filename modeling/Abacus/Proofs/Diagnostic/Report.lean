import Mathlib
import Abacus.Proofs.Diagnostic.Traceback
import Abacus.Proofs.Run.Spans

/-!
# Lines that can be reported on

What a diagnostic of a run says is not much longer than the text that was run.  So there is
a report on every line that leaves some room.
-/

namespace Abacus

open Text

namespace Text

/-- A text that leaves room for what a report says of it. -/
def Short (text : String) : Prop :=
  8 * text.utf8ByteSize <= capacity

theorem length_le_utf8Len (cs : List Char) : cs.length <= String.utf8Len cs := by
  induction cs with
  | nil => exact Nat.le_refl 0
  | cons c cs ih =>
      have hpos := c.utf8Size_pos
      rw [List.length_cons, String.utf8Len_cons]
      omega

end Text

/-! ## The excerpt -/

namespace Source

variable {s : Source}

theorem line_positionAt (h : '\n' ∉ s.text.toList) (n : Nat) : (s.positionAt n).line = 0 := by
  have hnone : '\n' ∉ s.text.toList.take n := fun hmem => h (List.mem_of_mem_take hmem)
  rw [positionAt, Position.line_advanceAll, List.count_eq_zero_of_not_mem hnone]
  rfl

theorem column_positionAt_le (h : '\n' ∉ s.text.toList) (n : Nat) :
    (s.positionAt n).column <= s.text.utf8ByteSize := by
  have hnone : '\n' ∉ s.text.toList.take n := fun hmem => h (List.mem_of_mem_take hmem)
  have hlength := length_le_utf8Len s.text.toList
  rw [String.utf8Len_toList] at hlength
  rw [positionAt, Position.column_advanceAll hnone, List.length_take]
  change 0 + _ <= _
  omega

end Source

namespace Span

variable {s : Source} {span : Span}

theorem utf8ByteSize_text_le (h : span.source = s) :
    span.text.utf8ByteSize <= s.text.utf8ByteSize := by
  rw [text, String.utf8ByteSize_ofList, h, ← String.utf8Len_toList s.text]
  exact String.utf8Len_le_of_sublist ((List.take_sublist ..).trans (List.drop_sublist ..))

/-- A span of a line that is short has an excerpt. -/
theorem Placed.exists_excerpt (h : span.Placed s) (hline : '\n' ∉ s.text.toList)
    (hshort : Short s.text) :
    ∃ excerpt, span.excerpt = .ok excerpt ∧
      excerpt.utf8ByteSize <= 3 * s.text.utf8ByteSize + 1 := by
  have hlines : span.start.line = span.stop.line := by
    rw [h.start_eq, h.stop_eq, Source.line_positionAt hline, Source.line_positionAt hline]
  have hstart : span.start.column <= s.text.utf8ByteSize := by
    rw [h.start_eq]
    exact Source.column_positionAt_le hline _
  have hstop : span.stop.column <= s.text.utf8ByteSize := by
    rw [h.stop_eq]
    exact Source.column_positionAt_le hline _
  have hshown : span.shown.utf8ByteSize <= 3 * s.text.utf8ByteSize + 1 := by
    have hle : String.utf8Len ((Excerpt.fromLine s.text.toList span.start.offset).takeWhile
        Excerpt.inLine) <= s.text.utf8ByteSize := by
      rw [← String.utf8Len_toList]
      exact String.utf8Len_le_of_sublist
        ((List.takeWhile_sublist _).trans (List.drop_sublist ..))
    rw [shown_of_line hlines, String.utf8ByteSize_ofList, Excerpt.utf8Len_rowText, h.source_eq]
    omega
  have hfits : span.shown.utf8ByteSize <= capacity := by
    have hcapacity : 8 <= capacity := by decide
    rw [Short] at hshort
    omega
  refine ⟨_, excerpt_of_fits span hfits, ?_⟩
  have hfilter := String.utf8Len_le_of_sublist
    (List.filter_sublist (p := fun c => decide (c ≠ '\t')) (l := span.shown.toList))
  rw [String.utf8Len_toList] at hfilter
  rw [String.utf8ByteSize_ofList]
  exact Nat.le_trans hfilter hshown

end Span

/-! ## The message and the headline -/

namespace Scan

theorem Cause.utf8ByteSize_message_le (cause : Cause) : cause.message.utf8ByteSize <= 64 := by
  cases cause with
  | illegal c =>
      have hquote : "'".utf8ByteSize = 1 := rfl
      have hchar := c.utf8Size_le_four
      simp only [message, String.utf8ByteSize_append, Char.toString, hquote,
        String.utf8ByteSize_singleton]
      omega
  | equalsAfter c =>
      have hquotes : "'=' (after '".utf8ByteSize = 12 ∧ "')".utf8ByteSize = 2 := by decide
      have hchar := c.utf8Size_le_four
      simp only [message, String.utf8ByteSize_append, Char.toString, hquotes,
        String.utf8ByteSize_singleton]
      omega

end Scan

theorem Parse.Expected.utf8ByteSize_message_le (expected : Expected) :
    expected.message.utf8ByteSize <= 64 := by
  cases expected <;> decide

namespace Diagnostic

variable {s : Source} {d : Diagnostic}

theorem Kind.utf8ByteSize_text_le (kind : Kind) : kind.text.utf8ByteSize <= 64 := by
  cases kind <;> decide

theorem place_of_line_zero {l : Location} (h : l.position.line = 0) :
    place l = .ok ("File " ++ l.source.name ++ ", line " ++ "1") := by
  rw [place, next, h]
  rfl

theorem headline_of_ne_runtime (h : d.kind ≠ .runtime) :
    d.headline = (place d.span.location).map (d.display ++ " " ++ ·) := by
  unfold headline
  split
  · contradiction
  · rfl

theorem exists_headline_of_read (h : s.read = .error d) (hline : '\n' ∉ s.text.toList) :
    ∃ text, d.headline = .ok text ∧ text.utf8ByteSize <= s.name.utf8ByteSize + 256 := by
  have hplaced := (Source.pointsInto_of_read h).placed
  have hplace : place d.span.location = .ok ("File " ++ s.name ++ ", line " ++ "1") := by
    have hzero : d.span.location.position.line = 0 := by
      rw [Span.location, hplaced.start_eq, Source.line_positionAt hline]
    rw [place_of_line_zero hzero, Span.location, hplaced.source_eq]
  obtain ⟨hkind, hmessage⟩ : d.kind ≠ .runtime ∧ d.message.utf8ByteSize <= 64 := by
    rcases Source.read_eq_error_iff.mp h with hscan | ⟨tokens, -, hparse⟩
    · obtain ⟨e, -, rfl⟩ := mapError_eq_error_iff.mp hscan
      refine ⟨?_, e.cause.utf8ByteSize_message_le⟩
      obtain ⟨cause, span⟩ := e
      cases cause <;> exact fun hruntime => by cases hruntime
    · obtain ⟨e, -, rfl⟩ := mapError_eq_error_iff.mp hparse
      exact ⟨fun hruntime => (by cases hruntime), e.expected.utf8ByteSize_message_le⟩
  refine ⟨_, (headline_of_ne_runtime hkind).trans (congrArg (Except.map _) hplace), ?_⟩
  have hsizes : "File ".utf8ByteSize = 5 ∧ ", line ".utf8ByteSize = 7 ∧ "1".utf8ByteSize = 1 ∧
      ": ".utf8ByteSize = 2 ∧ " ".utf8ByteSize = 1 := by decide
  have htext := d.kind.utf8ByteSize_text_le
  simp only [display, String.utf8ByteSize_append]
  omega

theorem exists_headline_of_fault {fault : Eval.Fault} (hplaced : fault.span.Placed s)
    (hmessage : fault.cause.message.utf8ByteSize <= s.text.utf8ByteSize + 64)
    (hline : '\n' ∉ s.text.toList) :
    ∃ text, (fault.diagnostic Source.program).headline = .ok text ∧
      text.utf8ByteSize <= s.name.utf8ByteSize + s.text.utf8ByteSize + 256 := by
  have hzero : fault.span.start.line = 0 := by
    rw [hplaced.start_eq, Source.line_positionAt hline]
  have hframes : tracebackText [⟨"<program>", fault.span.location⟩] =
      .ok ("Traceback (most recent call last):\n" ++
        ("  " ++ ("File " ++ s.name ++ ", line " ++ "1") ++ ", in " ++ "<program>" ++ "\n")) := by
    rw [tracebackText_cons, frameLine, place_of_line_zero hzero, Span.location, hplaced.source_eq]
    rfl
  refine ⟨_, congrArg (Except.map _) hframes, ?_⟩
  have hsizes : "Traceback (most recent call last):\n".utf8ByteSize = 35 ∧
      "  ".utf8ByteSize = 2 ∧ "File ".utf8ByteSize = 5 ∧ ", line ".utf8ByteSize = 7 ∧
      "1".utf8ByteSize = 1 ∧ ", in ".utf8ByteSize = 5 ∧ "<program>".utf8ByteSize = 9 ∧
      "\n".utf8ByteSize = 1 ∧ ", ".utf8ByteSize = 2 := by decide
  have htext := Kind.runtime.utf8ByteSize_text_le
  simp only [Eval.Fault.diagnostic, String.utf8ByteSize_append]
  omega

end Diagnostic

/-! ## The report -/

namespace Source

variable {s : Source} {scope : Scope} {d : Diagnostic}

theorem exists_headline (h : (s.run scope).result = .error d) (hline : '\n' ∉ s.text.toList) :
    ∃ text, d.headline = .ok text ∧
      text.utf8ByteSize <= s.name.utf8ByteSize + s.text.utf8ByteSize + 256 := by
  have hpoints := pointsInto_of_runIn h
  rcases runIn_eq_error_iff.mp h with hread | ⟨tree, fault, -, -, rfl⟩
  · obtain ⟨text, htext, hle⟩ := Diagnostic.exists_headline_of_read hread hline
    exact ⟨text, htext, by omega⟩
  · apply Diagnostic.exists_headline_of_fault hpoints.placed ?_ hline
    have hquoted := Span.utf8ByteSize_text_le hpoints.placed.source_eq
    have hsizes : "Division by Zero".utf8ByteSize = 16 ∧ "'".utf8ByteSize = 1 ∧
        "' is not defined".utf8ByteSize = 16 := by decide
    change (fault.diagnostic program).message.utf8ByteSize <= _
    rcases hpoints.undefined rfl with hmessage | hmessage
    · rw [hmessage]
      omega
    · rw [hmessage, String.utf8ByteSize_append, String.utf8ByteSize_append]
      omega

/-- A diagnostic of a short line can be reported. -/
theorem exists_render (h : (s.run scope).result = .error d) (hline : '\n' ∉ s.text.toList)
    (hname : Short s.name) (htext : Short s.text) : ∃ report, d.render = .ok report := by
  obtain ⟨headline, hheadline, hsize⟩ := exists_headline h hline
  obtain ⟨excerpt, hexcerpt, hle⟩ :=
    (pointsInto_of_runIn h).placed.exists_excerpt hline htext
  refine ⟨headline ++ " \n\n" ++ excerpt, ?_⟩
  have hfits : (headline ++ " \n\n" ++ excerpt).utf8ByteSize <= capacity := by
    have hblank : " \n\n".utf8ByteSize = 3 := rfl
    have hcapacity : 1024 <= capacity := by decide
    rw [Short] at hname htext
    rw [String.utf8ByteSize_append, String.utf8ByteSize_append]
    omega
  rw [Diagnostic.render_of_headline hheadline, hexcerpt]
  exact fitted_of_le hfits

end Source

end Abacus
