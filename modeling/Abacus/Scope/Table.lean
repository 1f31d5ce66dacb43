import Abacus.Number.Text
import Abacus.Text.Source

/-!
# Values and tables

A table binds names to values.  Its entries have distinct names, so its size is
the number of names it binds.
-/

namespace Abacus

/-- A number and, if it was computed, the stretch of text it was computed from. -/
structure Value where
  number : Number
  span : Option Span
deriving DecidableEq

def Value.text (v : Value) : String :=
  v.number.text

namespace Table

def find (name : String) : List (String × Value) -> Option Value
  | [] => none
  | (key, value) :: rest => if key = name then some value else find name rest

/-- Replaces the value of a name, or adds an entry at the end. -/
def put (name : String) (value : Value) : List (String × Value) -> List (String × Value)
  | [] => [(name, value)]
  | (key, old) :: rest =>
      if key = name then (name, value) :: rest else (key, old) :: put name value rest

def drop (name : String) (entries : List (String × Value)) : List (String × Value) :=
  entries.filter fun entry => entry.1 ≠ name

theorem keys_put (name : String) (value : Value) (entries : List (String × Value)) :
    (put name value entries).map Prod.fst =
      if name ∈ entries.map Prod.fst then entries.map Prod.fst
      else entries.map Prod.fst ++ [name] := by
  induction entries with
  | nil =>
      rfl
  | cons entry rest ih =>
      obtain ⟨key, old⟩ := entry
      by_cases h : key = name
      · simp [put, h]
      · have hne : ¬ name = key := fun he => h he.symm
        simp only [put, if_neg h, List.map_cons, ih, List.mem_cons, hne, false_or]
        split <;> rfl

theorem find_put (name other : String) (value : Value) (entries : List (String × Value)) :
    find other (put name value entries) =
      if name = other then some value else find other entries := by
  induction entries with
  | nil =>
      rfl
  | cons entry rest ih =>
      grind [put, find]

theorem find_drop (name other : String) (entries : List (String × Value)) :
    find other (drop name entries) = if name = other then none else find other entries := by
  induction entries with
  | nil =>
      simp [drop, find]
  | cons entry rest ih =>
      grind [drop, find]

end Table

structure Table where
  entries : List (String × Value)
  distinct : (entries.map Prod.fst).Nodup

namespace Table

def empty : Table :=
  ⟨[], List.nodup_nil⟩

def find? (t : Table) (name : String) : Option Value :=
  find name t.entries

def contains (t : Table) (name : String) : Bool :=
  (t.find? name).isSome

def insert (t : Table) (name : String) (value : Value) : Table where
  entries := put name value t.entries
  distinct := by
    rw [keys_put]
    split
    · exact t.distinct
    · next h =>
        rw [List.nodup_append]
        refine ⟨t.distinct, by simp, ?_⟩
        intro a ha b hb hab
        rw [List.mem_singleton.mp hb] at hab
        exact h (hab ▸ ha)

def erase (t : Table) (name : String) : Table where
  entries := drop name t.entries
  distinct := (List.filter_sublist.map Prod.fst).nodup t.distinct

def size (t : Table) : Nat :=
  t.entries.length

def isEmpty (t : Table) : Bool :=
  t.entries.isEmpty

@[simp] theorem find?_empty (name : String) : empty.find? name = none :=
  rfl

@[simp] theorem find?_insert (t : Table) (name other : String) (value : Value) :
    (t.insert name value).find? other = if name = other then some value else t.find? other :=
  find_put name other value t.entries

@[simp] theorem find?_erase (t : Table) (name other : String) :
    (t.erase name).find? other = if name = other then none else t.find? other :=
  find_drop name other t.entries

/-- The table that every session starts with: `null` is zero. -/
def globals : Table :=
  empty.insert "null" ⟨.int 0, none⟩

end Table

end Abacus
