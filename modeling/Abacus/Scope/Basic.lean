import Abacus.Scope.Table

/-!
# Scopes

A scope is a table with the tables around it.  A name is looked up from the inside
out; it is bound and unbound in the innermost table only.
-/

namespace Abacus

structure Scope where
  table : Table
  outer : List Table

namespace Scope

def ofTable (t : Table) : Scope :=
  ⟨t, []⟩

/-- The tables of a scope from the inside out. -/
def tables (s : Scope) : List Table :=
  s.table :: s.outer

def find? (s : Scope) (name : String) : Option Value :=
  s.tables.findSome? (·.find? name)

def contains (s : Scope) (name : String) : Bool :=
  s.tables.any (·.contains name)

def insert (s : Scope) (name : String) (value : Value) : Scope :=
  { s with table := s.table.insert name value }

def erase (s : Scope) (name : String) : Scope :=
  { s with table := s.table.erase name }

def enter (s : Scope) : Scope :=
  ⟨Table.empty, s.tables⟩

@[simp] theorem find?_insert (s : Scope) (name other : String) (value : Value) :
    (s.insert name value).find? other = if name = other then some value else s.find? other := by
  simp only [find?, tables, insert, List.findSome?_cons, Table.find?_insert]
  by_cases h : name = other <;> simp [h]

@[simp] theorem outer_insert (s : Scope) (name : String) (value : Value) :
    (s.insert name value).outer = s.outer :=
  rfl

@[simp] theorem find?_enter (s : Scope) (name : String) : s.enter.find? name = s.find? name :=
  rfl

end Scope

end Abacus
