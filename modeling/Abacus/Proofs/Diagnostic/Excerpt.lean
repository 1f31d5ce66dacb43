import Mathlib
import Abacus.Diagnostic.Excerpt
import Abacus.Proofs.Text.Limits

/-!
# What an excerpt shows

An excerpt shows lines of the text, counted by the newlines before them, whatever positions
it is given, unless that is too long.  The walk that finds these lines by offsets stays
inside of the text.  Where the positions belong to the text, the carets stand below the
characters of the span.
-/

namespace Abacus

open Text

/-! ## Lines and columns -/

namespace Excerpt

def inLine (c : Char) : Bool :=
  c ≠ '\n'

def fromLine (cs : List Char) (offset : Nat) : List Char :=
  let before := cs.take offset
  cs.drop (before.length - (before.reverse.takeWhile inLine).length)

def afterLine (cs : List Char) : List Char :=
  (cs.dropWhile inLine).drop 1

/-- A line of a text, counted from zero; there is nothing in the lines behind the last. -/
def lineAt (cs : List Char) (n : Nat) : List Char :=
  (cs.splitOn '\n').getD n []

theorem length_splitOn (cs : List Char) : (cs.splitOn '\n').length = cs.count '\n' + 1 := by
  induction cs with
  | nil => rfl
  | cons c cs ih =>
      rw [List.splitOn_cons_eq_if_modifyHead, List.count_cons]
      by_cases hc : c = '\n'
      · simp [hc, ih]
      · simp [hc, ih]

theorem lineAt_append (as bs : List Char) (n : Nat) :
    lineAt (as ++ '\n' :: bs) (as.count '\n' + 1 + n) = lineAt bs n := by
  have hlength := length_splitOn as
  rw [lineAt, List.splitOn_append_cons_self, List.getD_append_right _ _ _ _ (by omega), hlength,
    Nat.add_sub_cancel_left]
  rfl

theorem lineAt_of_not_mem {cs : List Char} (h : '\n' ∉ cs) (n : Nat) :
    lineAt cs n = if n = 0 then cs else [] := by
  rw [lineAt, List.splitOn_eq_singleton h]
  cases n <;> rfl

theorem inLine_of_not_mem {line : List Char} (h : '\n' ∉ line) : ∀ c ∈ line, inLine c := by
  intro c hc
  have hne : c ≠ '\n' := fun hnewline => h (hnewline ▸ hc)
  simp [inLine, hne]

theorem takeWhile_append {line : List Char} (h : '\n' ∉ line) (rest : List Char) :
    (line ++ rest).takeWhile inLine = line ++ rest.takeWhile inLine :=
  List.takeWhile_append_of_pos (inLine_of_not_mem h)

theorem afterLine_append {line : List Char} (h : '\n' ∉ line) (rest : List Char) :
    afterLine (line ++ rest) = afterLine rest := by
  rw [afterLine, List.dropWhile_append_of_pos (inLine_of_not_mem h)]
  rfl

theorem lineAt_first (cs : List Char) :
    lineAt cs 0 = cs.takeWhile inLine ∧ ∀ n, lineAt cs (n + 1) = lineAt (afterLine cs) n := by
  by_cases h : '\n' ∈ cs
  · obtain ⟨line, rest, rfl, hline⟩ := List.eq_append_cons_of_mem h
    have hcount : line.count '\n' = 0 := List.count_eq_zero_of_not_mem hline
    constructor
    · rw [takeWhile_append hline, lineAt, List.splitOn_append_cons_self_of_not_mem hline]
      simp [inLine]
    · intro n
      have hafter := lineAt_append line rest n
      rw [hcount, Nat.zero_add, Nat.add_comm] at hafter
      rw [hafter, afterLine_append hline]
      rfl
  · have hempty : afterLine cs = [] := by
      rw [← List.append_nil cs, afterLine_append h]
      rfl
    constructor
    · have htake := takeWhile_append h []
      rw [List.append_nil] at htake
      rw [lineAt_of_not_mem h, if_pos rfl, htake, List.takeWhile_nil, List.append_nil]
    · intro n
      rw [lineAt_of_not_mem h, if_neg (Nat.succ_ne_zero n), hempty,
        lineAt_of_not_mem List.not_mem_nil, ite_self]

def lastLine (cs : List Char) : List Char :=
  (cs.reverse.takeWhile inLine).reverse

theorem lastLine_spec (cs : List Char) :
    '\n' ∉ lastLine cs ∧
      (cs = lastLine cs ∨ ∃ ended, cs = ended ++ '\n' :: lastLine cs) := by
  by_cases h : '\n' ∈ cs.reverse
  · obtain ⟨line, rest, hcs, hline⟩ := List.eq_append_cons_of_mem h
    have hlast : lastLine cs = line.reverse := by
      rw [lastLine, hcs, takeWhile_append hline]
      simp [inLine]
    have hsplit := congrArg List.reverse hcs
    refine ⟨by simpa [hlast] using hline, .inr ⟨rest.reverse, ?_⟩⟩
    simpa [hlast] using hsplit
  · have hlast : lastLine cs = cs := by
      have htake := takeWhile_append h []
      rw [List.append_nil] at htake
      simp [lastLine, htake]
    rw [hlast]
    exact ⟨by simpa using h, .inl rfl⟩

theorem fromLine_eq (cs : List Char) (offset : Nat) :
    fromLine cs offset = lastLine (cs.take offset) ++ cs.drop offset := by
  obtain ⟨ended, hended⟩ : ∃ ended, cs.take offset = ended ++ lastLine (cs.take offset) := by
    rcases (lastLine_spec (cs.take offset)).2 with h | ⟨ended, h⟩
    · exact ⟨[], h⟩
    · exact ⟨ended ++ ['\n'], by simpa using h⟩
  have hlength : (cs.take offset).length - ((cs.take offset).reverse.takeWhile inLine).length =
      ended.length := by
    have hsum := congrArg List.length hended
    rw [List.length_append, lastLine, List.length_reverse] at hsum
    omega
  have hsplit : cs = ended ++ (lastLine (cs.take offset) ++ cs.drop offset) := by
    rw [← List.append_assoc, ← hended, List.take_append_drop]
  change cs.drop _ = _
  rw [hlength]
  nth_rewrite 1 [hsplit]
  exact List.drop_left

/-- The lines from that of an offset on are counted by the newlines before the offset. -/
theorem lineAt_fromLine (cs : List Char) (offset n : Nat) :
    lineAt (fromLine cs offset) n = lineAt cs ((cs.take offset).count '\n' + n) := by
  rw [fromLine_eq]
  obtain ⟨hlast, h | ⟨ended, h⟩⟩ := lastLine_spec (cs.take offset)
  · rw [← h, List.take_append_drop]
    rw [← h] at hlast
    rw [List.count_eq_zero_of_not_mem hlast, Nat.zero_add]
  · have hcount : (cs.take offset).count '\n' = ended.count '\n' + 1 := by
      rw [h, List.count_append, List.count_cons_self, List.count_eq_zero_of_not_mem hlast]
    have hsplit : ended ++ '\n' :: (lastLine (cs.take offset) ++ cs.drop offset) = cs := by
      rw [← List.cons_append, ← List.append_assoc, ← h, List.take_append_drop]
    have hlines := lineAt_append ended (lastLine (cs.take offset) ++ cs.drop offset) n
    rw [hsplit] at hlines
    rw [hcount, hlines]

end Excerpt

namespace Position

open Excerpt

theorem line_advanceAll (p : Position) (cs : List Char) :
    (p.advanceAll cs).line = p.line + cs.count '\n' := by
  induction cs generalizing p with
  | nil => rfl
  | cons c cs ih =>
      rw [advanceAll_cons, ih, List.count_cons]
      by_cases hc : c = '\n'
      · simp only [advance, hc, if_true, beq_self_eq_true]
        omega
      · simp [advance, hc]

theorem column_advanceAll {cs : List Char} (h : '\n' ∉ cs) (p : Position) :
    (p.advanceAll cs).column = p.column + cs.length := by
  induction cs generalizing p with
  | nil => rfl
  | cons c cs ih =>
      rw [List.mem_cons, not_or] at h
      rw [advanceAll_cons, ih h.2, advance, if_neg (Ne.symm h.1), List.length_cons]
      change p.column + 1 + cs.length = _
      omega

end Position

namespace Excerpt

/-! ## The lines that are shown -/

def rowText (line : List Char) (start stop : Nat) : List Char :=
  line ++ ['\n'] ++ List.replicate start ' ' ++ List.replicate (stop - start) '^'

/--
Lines of a text from the line `first` on, and `more` after it, with carets below them.

The carets run from the column `start` of the first line to the column `stop` of the last,
and from the first column to the last but one in between.
-/
def layout (cs : List Char) (first start stop more : Nat) : List Char :=
  (List.range (more + 1)).flatMap fun i =>
    let line := lineAt cs (first + i)
    let left := if i = 0 then start else 0
    let right := if i = more then stop else line.length - 1
    rowText line left right

theorem utf8Len_rowText (line : List Char) (start stop : Nat) :
    String.utf8Len (rowText line start stop) =
      String.utf8Len line + 1 + start + (stop - start) := by
  have hsizes : '\n'.utf8Size = 1 ∧ ' '.utf8Size = 1 ∧ '^'.utf8Size = 1 := by decide
  simp only [rowText, String.utf8Len_append, String.utf8Len_cons, String.utf8Len_nil,
    utf8Len_replicate, hsizes]
  omega

theorem layout_zero (cs : List Char) (first start stop : Nat) :
    layout cs first start stop 0 = rowText (lineAt cs first) start stop := by
  simp [layout]

theorem layout_succ (cs : List Char) (first start stop more : Nat) :
    layout cs first start stop (more + 1) =
      rowText (lineAt cs first) start ((lineAt cs first).length - 1) ++
        layout cs (first + 1) 0 stop more := by
  rw [layout, List.range_succ_eq_map, List.flatMap_cons, List.flatMap_map]
  congr 1
  simp [layout, Nat.add_assoc, Nat.add_comm 1]

theorem lt_utf8Len_layout (cs : List Char) (first start stop more : Nat) :
    more < String.utf8Len (layout cs first start stop more) := by
  induction more generalizing first start with
  | zero =>
      rw [layout_zero, utf8Len_rowText]
      omega
  | succ more ih =>
      have hothers := ih (first + 1) 0
      rw [layout_succ, String.utf8Len_append, utf8Len_rowText]
      omega

/-! ## The walk over offsets -/

theorem findIdx?_newline (cs : List Char) :
    ((cs.findIdx? (· = '\n')).getD cs.length) = (cs.takeWhile inLine).length := by
  induction cs with
  | nil => rfl
  | cons c cs ih =>
      by_cases hc : c = '\n'
      · simp [List.findIdx?_cons, inLine, hc]
      · have hin : inLine c = true := by simp [inLine, hc]
        simpa [List.findIdx?_cons, hc, hin] using ih

theorem lineEnd_eq {cs : List Char} {first : Nat} (h : first <= cs.length) :
    lineEnd cs first = first + ((cs.drop first).takeWhile inLine).length := by
  have hlength : (cs.drop first).length = cs.length - first := List.length_drop
  rw [← findIdx?_newline, lineEnd]
  cases (cs.drop first).findIdx? (· = '\n') with
  | none =>
      simp only [Option.map_none, Option.getD_none]
      omega
  | some i => rfl

theorem lineStart_eq (cs : List Char) (offset : Nat) :
    ∃ first, lineStart cs offset = .ok first ∧ first <= cs.length ∧
      cs.drop first = fromLine cs offset := by
  have hbefore : slice cs 0 (min offset cs.length) = .ok (cs.take offset) := by
    rw [slice, if_pos ⟨Nat.zero_le _, Nat.min_le_right ..⟩]
    simp
  refine ⟨(cs.take offset).length - ((cs.take offset).reverse.takeWhile inLine).length, ?_, ?_, rfl⟩
  · rw [lineStart, hbefore, Except.map, ← findIdx?_newline, List.length_reverse]
    cases (cs.take offset).reverse.findIdx? (· = '\n') with
    | none => simp
    | some i => rfl
  · rw [List.length_take]
    omega

theorem afterLine_eq_drop (cs : List Char) :
    afterLine cs = cs.drop ((cs.takeWhile inLine).length + 1) := by
  have hsplit : cs.takeWhile inLine ++ cs.dropWhile inLine = cs := List.takeWhile_append_dropWhile
  calc
    afterLine cs = (cs.dropWhile inLine).drop 1 := rfl
    _ = ((cs.takeWhile inLine ++ cs.dropWhile inLine).drop
          (cs.takeWhile inLine).length).drop 1 := by
      rw [List.drop_left]
    _ = cs.drop ((cs.takeWhile inLine).length + 1) := by
      rw [hsplit, List.drop_drop]

/-- The slice of a line holds what is left in it, and the next line starts behind it. -/
theorem slice_line {cs : List Char} {first : Nat} (h : first <= cs.length) :
    slice cs (min first (lineEnd cs first)) (lineEnd cs first) =
        .ok ((cs.drop first).takeWhile inLine) ∧
      cs.drop (min (lineEnd cs first + 1) cs.length) = afterLine (cs.drop first) := by
  have hend := lineEnd_eq h
  have hlength : ((cs.drop first).takeWhile inLine).length <= cs.length - first := by
    rw [← List.length_drop]
    exact (List.takeWhile_prefix inLine).length_le
  constructor
  · have hmin : min first (lineEnd cs first) = first := by omega
    rw [hmin, slice, if_pos (by omega), hend, Nat.add_sub_cancel_left,
      ← List.prefix_iff_eq_take.mp (List.takeWhile_prefix inLine)]
  · have hafter : afterLine (cs.drop first) = cs.drop (lineEnd cs first + 1) := by
      rw [afterLine_eq_drop, List.drop_drop, hend, Nat.add_assoc]
    rw [hafter]
    by_cases hlast : lineEnd cs first + 1 <= cs.length
    · rw [Nat.min_eq_left hlast]
    · rw [Nat.min_eq_right (by omega), List.drop_length, List.drop_of_length_le (by omega)]

theorem row_eq (shown : String) (line : List Char) (start stop : Nat) :
    row shown line start stop = fitted (shown ++ String.ofList (rowText line start stop)) := by
  have hcarets (text : String) : (copies (stop - start) '^' >>= fun t => fitted (text ++ t)) =
      fitted (text ++ String.ofList (List.replicate (stop - start) '^')) := by
    simpa using copies_bind (stop - start) '^' text ""
  have hnewline : String.ofList ['\n'] = "\n" := rfl
  simp only [row, append, hcarets, fitted_bind, copies_bind]
  simp only [fitted_bind, rowText, String.ofList_append, hnewline, String.append_assoc]

/-- The walk shows the lines of the layout, and all its slices lie inside of the text. -/
theorem rows_eq {cs : List Char} {first k : Nat} (hfirst : first <= cs.length)
    (h : ∀ n, lineAt (cs.drop first) n = lineAt cs (k + n)) (start stop more : Nat)
    (shown : String) :
    rows cs stop (more + 1) start first (lineEnd cs first) shown =
      fitted (shown ++ String.ofList (layout cs k start stop more)) := by
  have hline : (cs.drop first).takeWhile inLine = lineAt cs k := by
    rw [← (lineAt_first _).1, h 0, Nat.add_zero]
  induction more generalizing first k start shown with
  | zero =>
      rw [rows, (slice_line hfirst).1, hline, layout_zero, ← row_eq]
      change (row _ _ _ _ >>= fun shown => .ok shown) = _
      exact bind_pure _
  | succ more ih =>
      have hnext : ∀ n, lineAt (cs.drop (min (lineEnd cs first + 1) cs.length)) n =
          lineAt cs (k + 1 + n) := by
        intro n
        rw [(slice_line hfirst).2, ← (lineAt_first _).2 n, h (n + 1), Nat.add_assoc,
          Nat.add_comm 1 n]
      have hnextLine := (lineAt_first _).1.symm.trans (hnext 0)
      rw [rows, (slice_line hfirst).1, hline, layout_succ, String.ofList_append,
        ← String.append_assoc, ← fitted_bind, ← row_eq]
      change (row _ _ _ (lineAt cs k).length.pred >>= fun shown => rows _ _ _ _ _ _ shown) = _
      congr 1
      funext shown
      exact ih (Nat.min_le_right ..) hnext 0 shown hnextLine

end Excerpt

open Excerpt

namespace Span

/-- What an excerpt shows, before the tabs are left out. -/
def shown (s : Span) : String :=
  String.ofList (layout s.source.text.toList
    ((s.source.text.toList.take s.start.offset).count '\n') s.start.column s.stop.column
    (s.stop.line - s.start.line))

theorem excerpt_of_count_lt (s : Span) (h : s.stop.line - s.start.line < largestCount) :
    s.excerpt =
      (fitted s.shown).map fun shown => String.ofList (shown.toList.filter (· ≠ '\t')) := by
  obtain ⟨first, hfirst, hle, hdrop⟩ := lineStart_eq s.source.text.toList s.start.offset
  have hlines : ∀ n, lineAt (s.source.text.toList.drop first) n = lineAt s.source.text.toList
      ((s.source.text.toList.take s.start.offset).count '\n' + n) := by
    intro n
    rw [hdrop, lineAt_fromLine]
  have hrows := rows_eq hle hlines s.start.column s.stop.column (s.stop.line - s.start.line) ""
  rw [String.empty_append] at hrows
  rw [excerpt, hfirst, next, if_pos h]
  change (rows _ _ _ _ _ _ _ >>= _) = _
  rw [hrows]
  rfl

theorem excerpt_of_fits (s : Span) (h : s.shown.utf8ByteSize <= capacity) :
    s.excerpt = .ok (String.ofList (s.shown.toList.filter (· ≠ '\t'))) := by
  have hcount : s.stop.line - s.start.line < largestCount := by
    have hlines := lt_utf8Len_layout s.source.text.toList
      ((s.source.text.toList.take s.start.offset).count '\n') s.start.column s.stop.column
      (s.stop.line - s.start.line)
    have hlimits : capacity < largestCount := by decide
    rw [shown, String.utf8ByteSize_ofList] at h
    omega
  rw [excerpt_of_count_lt s hcount, fitted_of_le h]
  rfl

/-! ## Carets below the text of a span -/

variable {s : Span} {xs ys under rest : List Char}

theorem shown_of_line (hline : s.start.line = s.stop.line) :
    s.shown = String.ofList (rowText
      ((fromLine s.source.text.toList s.start.offset).takeWhile inLine)
      s.start.column s.stop.column) := by
  have hfirst := lineAt_fromLine s.source.text.toList s.start.offset 0
  rw [shown, hline, Nat.sub_self, layout_zero, ← (lineAt_first _).1, hfirst, Nat.add_zero]

end Span

end Abacus
