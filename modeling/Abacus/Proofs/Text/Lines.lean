import Mathlib
import Abacus.Text.Lines

/-!
# Lines that are left as they are

A line with nothing to trim is given back by cutting a text into its lines, and by
trimming it together with its newline.  Two texts with a newline between them have the
lines of the one and those of the other.
-/

namespace Abacus

namespace Text

/-- One line that is not blank and has no white space at its ends. -/
structure IsLine (cs : List Char) : Prop where
  not_blank : ¬ isBlank cs
  no_newline : '\n' ∉ cs
  first : ∀ c ∈ cs.head?, ¬ isWhiteSpace c
  last : ∀ c ∈ cs.getLast?, ¬ isWhiteSpace c

namespace IsLine

variable {cs : List Char}

theorem ne_nil (h : IsLine cs) : cs ≠ [] := by
  rintro rfl
  exact h.not_blank rfl

theorem getLast?_ne_return (h : IsLine cs) : cs.getLast? ≠ some '\r' := by
  intro hlast
  exact h.last '\r' hlast (by decide)

end IsLine

def isLine (cs : List Char) : Bool :=
  !isBlank cs && !cs.contains '\n' && cs.head?.all (!isWhiteSpace ·) &&
    cs.getLast?.all (!isWhiteSpace ·)

theorem isLine_iff {cs : List Char} : isLine cs = true ↔ IsLine cs := by
  simp only [isLine, Bool.and_eq_true, Bool.not_eq_true', Option.all_eq_true]
  constructor
  · rintro ⟨⟨⟨hblank, hnewline⟩, hfirst⟩, hlast⟩
    exact ⟨by simp [hblank], by simpa using hnewline, by simpa using hfirst, by simpa using hlast⟩
  · rintro ⟨hblank, hnewline, hfirst, hlast⟩
    simp_all

theorem lines_cons {c : Char} {cs line : List Char} {rest : List (List Char)} (hnewline : c ≠ '\n')
    (hreturn : c = '\r' -> cs.head? ≠ some '\n') (h : lines cs = line :: rest) :
    lines (c :: cs) = (c :: line) :: rest := by
  rw [lines, h]
  · rintro ds rfl rfl
    exact hreturn rfl rfl
  · exact hnewline

/-- A newline ends what stands before it, unless that ends with a carriage return. -/
theorem lines_append_newline {cs rest : List Char} (hnewline : '\n' ∉ cs)
    (hreturn : cs.getLast? ≠ some '\r') : lines (cs ++ '\n' :: rest) = cs :: lines rest := by
  induction cs with
  | nil => rw [List.nil_append, lines]
  | cons c cs ih =>
      rw [List.mem_cons, not_or] at hnewline
      cases cs with
      | nil =>
          have hc : c ≠ '\r' := fun hc => hreturn (by simp [hc])
          exact lines_cons (Ne.symm hnewline.1) (fun h => absurd h hc) (ih nofun nofun)
      | cons d ds =>
          have hd : d ≠ '\n' := fun hd => hnewline.2 (by simp [hd])
          exact lines_cons (Ne.symm hnewline.1) (by simp [hd])
            (ih hnewline.2 (by simpa using hreturn))

/-- Lines with a newline after each are cut at the newlines. -/
theorem lines_flatMap {ls : List (List Char)} (h : ∀ l ∈ ls, IsLine l) :
    lines (ls.flatMap (· ++ ['\n'])) = ls := by
  induction ls with
  | nil => rw [List.flatMap_nil, lines]
  | cons l ls ih =>
      rw [List.forall_mem_cons] at h
      rw [List.flatMap_cons, List.append_assoc, List.singleton_append,
        lines_append_newline h.1.no_newline h.1.getLast?_ne_return, ih h.2]

theorem dropWhile_eq_self {p : Char -> Bool} {cs : List Char} (h : ∀ c ∈ cs.head?, ¬ p c) :
    cs.dropWhile p = cs := by
  cases cs with
  | nil => rfl
  | cons c cs => rw [List.dropWhile_cons_of_neg (h c rfl)]

theorem trim_append_newline {cs : List Char} (h : IsLine cs) : trim (cs ++ ['\n']) = cs := by
  have hfirst : ∀ c ∈ (cs ++ ['\n']).head?, ¬ isWhiteSpace c := by
    rw [List.head?_append_of_ne_nil _ h.ne_nil]
    exact h.first
  have hlast : ∀ c ∈ cs.reverse.head?, ¬ isWhiteSpace c := by
    rw [List.head?_reverse]
    exact h.last
  have hnewline : isWhiteSpace '\n' := by decide
  rw [trim, dropWhile_eq_self hfirst, List.reverse_append, List.reverse_singleton,
    List.singleton_append, List.dropWhile_cons_of_pos hnewline, dropWhile_eq_self hlast,
    List.reverse_reverse]

/-! ## Two texts with a newline between them -/

theorem lines_eq_nil_iff {cs : List Char} : lines cs = [] ↔ cs = [] := by
  constructor
  · intro h
    fun_cases lines cs <;> simp_all [lines]
  · rintro rfl
    rw [lines]

/-- Whether no line has begun since the last newline. -/
def isClosed (cs : List Char) : Bool :=
  cs.getLast?.all (· = '\n')

theorem isClosed_cons (c : Char) {cs : List Char} (h : cs ≠ []) :
    isClosed (c :: cs) = isClosed cs := by
  obtain ⟨d, ds, rfl⟩ := List.exists_cons_of_ne_nil h
  rw [isClosed, isClosed, List.getLast?_cons_cons]

theorem isClosed_newline_cons (cs : List Char) : isClosed ('\n' :: cs) = isClosed cs := by
  cases cs with
  | nil => rfl
  | cons d ds => exact isClosed_cons '\n' (List.cons_ne_nil d ds)

/-- A further newline ends an empty line where no line has begun. -/
def gap (cs : List Char) : List (List Char) :=
  if isClosed cs then [[]] else []

theorem isBlank_of_mem_gap {cs line : List Char} (h : line ∈ gap cs) : isBlank line := by
  have hline : line = [] := by
    rw [gap] at h
    split at h
    · exact List.mem_singleton.mp h
    · cases h
  rw [hline]
  rfl

/--
The lines of two texts with a newline between them.

A carriage return at the end of the first text is left out, since the newline would
take it away.
-/
theorem lines_append {cs : List Char} (h : cs.getLast? ≠ some '\r') (ds : List Char) :
    lines (cs ++ '\n' :: ds) = lines cs ++ (gap cs ++ lines ds) := by
  fun_induction lines cs with
  | case1 =>
      rw [List.nil_append, lines]
      rfl
  | case2 cs ih =>
      have hlast : cs.getLast? ≠ some '\r' := fun hr =>
        h (List.mem_getLast?_cons (List.mem_getLast?_cons hr))
      have hgap : gap ('\r' :: '\n' :: cs) = gap cs := by
        rw [gap, isClosed_cons _ (List.cons_ne_nil _ _), isClosed_newline_cons, gap]
      rw [List.cons_append, List.cons_append, lines, ih hlast, hgap, List.cons_append]
  | case3 cs ih =>
      have hlast : cs.getLast? ≠ some '\r' := fun hr => h (List.mem_getLast?_cons hr)
      have hgap : gap ('\n' :: cs) = gap cs := by
        rw [gap, isClosed_newline_cons, gap]
      rw [List.cons_append, lines, ih hlast, hgap, List.cons_append]
  | case4 c cs _ hnewline hlines _ =>
      obtain rfl := lines_eq_nil_iff.mp hlines
      have hgap : gap [c] = [] := if_neg (by simpa [isClosed] using hnewline)
      rw [lines_append_newline (by simpa using Ne.symm hnewline) h, hgap]
      rfl
  | case5 c cs hreturn hnewline line rest hlines ih =>
      have hcs : cs ≠ [] := by
        rintro rfl
        simp [lines] at hlines
      have hgap : gap (c :: cs) = gap cs := by
        rw [gap, isClosed_cons c hcs, gap]
      have hhead : c = '\r' -> (cs ++ '\n' :: ds).head? ≠ some '\n' := by
        intro hc hhead
        rw [List.head?_append_of_ne_nil _ hcs, List.head?_eq_some_iff] at hhead
        obtain ⟨tail, hcs⟩ := hhead
        exact hreturn tail hc hcs
      rw [hlines, ← hgap] at ih
      exact lines_cons hnewline hhead (ih fun hr => h (List.mem_getLast?_cons hr))

end Text

end Abacus
