import Mathlib
import Abacus.Proofs.Text.Lines
import Abacus.Shell.Basic

/-!
# Lines as bytes

No character but the newline has the byte of a newline in its encoding.  So the input is
cut at the same places before it is decoded as after it, and a line is decoded as it was
given.
-/

namespace Abacus

namespace Shell

open Text

def bytes (s : String) : List UInt8 :=
  s.toUTF8.data.toList

theorem bytes_append (s t : String) : bytes (s ++ t) = bytes s ++ bytes t := by
  simp [bytes, String.toUTF8]

theorem bytes_eq (s : String) : bytes s = s.toList.flatMap String.utf8EncodeChar := by
  have hbytes : s.toByteArray = s.toList.utf8Encode := by
    rw [← String.toByteArray_ofList, String.ofList_toList]
  rw [bytes, String.toUTF8, hbytes, List.utf8Encode, List.toList_data_toByteArray]

theorem newline_ne_ofNat {n : Nat} (hlt : n < 256) (hne : n ≠ 10) :
    (10 : UInt8) ≠ UInt8.ofNat n := by
  intro h
  have htoNat := congrArg UInt8.toNat h
  rw [UInt8.toNat_ofNat_of_lt' hlt] at htoNat
  exact hne htoNat.symm

/-- A character of several bytes has only bytes beyond those of ASCII. -/
theorem newline_not_mem_utf8EncodeChar {c : Char} (h : c ≠ '\n') :
    (10 : UInt8) ∉ String.utf8EncodeChar c := by
  have hval : c.val.toNat ≠ 10 := fun hval => h (Char.ext (UInt32.toNat_inj.mp hval))
  unfold String.utf8EncodeChar
  generalize c.val.toNat = v at hval
  dsimp only
  split_ifs with hone
  all_goals simp only [List.mem_cons, List.not_mem_nil, or_false, not_or]
  · exact newline_ne_ofNat (by omega) hval
  all_goals and_intros
  all_goals exact newline_ne_ofNat (by omega) (by omega)

theorem newline_not_mem_bytes {s : String} (h : '\n' ∉ s.toList) : (10 : UInt8) ∉ bytes s := by
  rw [bytes_eq, List.mem_flatMap]
  rintro ⟨c, hc, hmem⟩
  refine newline_not_mem_utf8EncodeChar ?_ hmem
  rintro rfl
  exact h hc

theorem fromUTF8?_toUTF8 (s : String) : String.fromUTF8? s.toUTF8 = some s := by
  unfold String.fromUTF8?
  rw [String.toUTF8_eq_toByteArray, dif_pos s.isValidUTF8]
  rfl

/-! ## The input -/

def text (lines : List String) : String :=
  String.join (lines.map line)

theorem text_cons (l : String) (lines : List String) : text (l :: lines) = line l ++ text lines :=
  String.join_cons

theorem inputLines_append {bs rest : List UInt8} (h : (10 : UInt8) ∉ bs) :
    inputLines (bs ++ 10 :: rest) = (bs ++ [10]) :: inputLines rest := by
  induction bs with
  | nil => rfl
  | cons b bs ih =>
      rw [List.mem_cons, not_or] at h
      rw [List.cons_append, inputLines, if_neg (Ne.symm h.1), ih h.2]
      rfl

/-- Lines with a newline after each are read one by one. -/
theorem inputLines_text {lines : List String} (h : ∀ l ∈ lines, IsLine l.toList) :
    inputLines (bytes (text lines)) = lines.map fun l => bytes (line l) := by
  induction lines with
  | nil => rfl
  | cons l lines ih =>
      rw [List.forall_mem_cons] at h
      have hline : bytes (line l) = bytes l ++ [10] := bytes_append l "\n"
      rw [text_cons, bytes_append, hline, List.append_assoc, List.singleton_append,
        inputLines_append (newline_not_mem_bytes h.1.no_newline), ih h.2, List.map_cons, hline]

theorem inputText?_line {l : String} (h : IsLine l.toList) :
    inputText? (bytes (line l)) = some l := by
  have hbytes : (⟨(bytes (line l)).toArray⟩ : ByteArray) = (line l).toUTF8 := rfl
  have htoList : (line l).toList = l.toList ++ ['\n'] := String.toList_append
  rw [inputText?, hbytes, fromUTF8?_toUTF8, Option.map_some, htoList, trim_append_newline h,
    String.ofList_toList]

/-- The lines of a script are those that were given. -/
theorem programLines_text {lines : List String} (h : ∀ l ∈ lines, IsLine l.toList) :
    Program.lines (text lines) = lines := by
  have htoList : (text lines).toList = (lines.map String.toList).flatMap (· ++ ['\n']) := by
    simp [text, String.toList_join, List.flatMap_map, line]
  have hchars : ∀ cs ∈ lines.map String.toList, IsLine cs := by
    simpa using h
  have hfilter : (lines.map String.toList).filter (fun cs => !isBlank cs)
      = lines.map String.toList :=
    List.filter_eq_self.mpr fun cs hcs => by simp [(hchars cs hcs).not_blank]
  rw [Program.lines, htoList, lines_flatMap hchars, hfilter, List.map_map]
  simp

end Shell

end Abacus
