import Mathlib
import Abacus.Scope.Basic

/-!
# Scopes as stacks of finite maps

What a table binds is a finite map, and a scope is a stack of such maps.  The order in
which names were bound is not part of them, so scopes with the same stack are the same
to everyone who looks names up or counts them.
-/

namespace Abacus

abbrev Bindings := Finmap fun _ : String => Value

/-! ## Tables -/

namespace Table

theorem dlookup_toSigma (name : String) (entries : List (String × Value)) :
    (entries.map Prod.toSigma).dlookup name = find name entries := by
  induction entries with
  | nil => rfl
  | cons entry rest ih =>
      obtain ⟨key, value⟩ := entry
      by_cases h : key = name
      · subst h
        simp [find]
      · rw [List.map_cons, List.dlookup_cons_ne _ _ (Ne.symm h), ih, find, if_neg h]

theorem keys_toSigma (entries : List (String × Value)) :
    (entries.map Prod.toSigma).keys = entries.map Prod.fst := by
  simp [List.keys, Function.comp_def]

def bindings (t : Table) : Bindings where
  entries := (t.entries.map Prod.toSigma : List (Sigma fun _ : String => Value))
  nodupKeys := by
    rw [Multiset.coe_nodupKeys, List.NodupKeys, keys_toSigma]
    exact t.distinct

@[simp] theorem lookup_bindings (t : Table) (name : String) :
    t.bindings.lookup name = t.find? name :=
  dlookup_toSigma name t.entries

theorem bindings_eq_iff {t u : Table} :
    t.bindings = u.bindings ↔ ∀ name, t.find? name = u.find? name := by
  constructor
  · intro h name
    rw [← lookup_bindings, h, lookup_bindings]
  · intro h
    apply Finmap.ext_lookup
    simpa using h

@[simp] theorem bindings_insert (t : Table) (name : String) (value : Value) :
    (t.insert name value).bindings = t.bindings.insert name value := by
  apply Finmap.ext_lookup
  intro other
  by_cases h : name = other
  · subst h
    simp
  · rw [Finmap.lookup_insert_of_ne _ (Ne.symm h)]
    simp [h]

@[simp] theorem bindings_erase (t : Table) (name : String) :
    (t.erase name).bindings = t.bindings.erase name := by
  apply Finmap.ext_lookup
  intro other
  by_cases h : name = other
  · subst h
    simp
  · rw [Finmap.lookup_erase_ne (Ne.symm h)]
    simp [h]

/-- The size of a table is the number of names that it binds. -/
theorem card_keys_bindings (t : Table) : t.bindings.keys.card = t.size := by
  change ((t.entries.map Prod.toSigma).keys : Multiset String).card = t.entries.length
  simp [keys_toSigma]

end Table

/-! ## Stacks -/

structure Stack where
  top : Bindings
  below : List Bindings

namespace Stack

def maps (k : Stack) : List Bindings :=
  k.top :: k.below

/-- A name has a value in the topmost map that has the name. -/
def Holds (k : Stack) (name : String) (value : Value) : Prop :=
  ∃ above m below, k.maps = above ++ m :: below ∧ (∀ n ∈ above, name ∉ n) ∧
    m.lookup name = some value

def lookup (k : Stack) (name : String) : Option Value :=
  k.maps.findSome? (·.lookup name)

def insert (k : Stack) (name : String) (value : Value) : Stack :=
  { k with top := k.top.insert name value }

def erase (k : Stack) (name : String) : Stack :=
  { k with top := k.top.erase name }

def push (k : Stack) : Stack :=
  ⟨∅, k.maps⟩

theorem lookup_eq_some_iff {k : Stack} {name : String} {value : Value} :
    k.lookup name = some value ↔ k.Holds name value := by
  rw [lookup, List.findSome?_eq_some_iff]
  constructor
  · rintro ⟨above, m, below, hmaps, hvalue, habove⟩
    exact ⟨above, m, below, hmaps, fun n hn => Finmap.lookup_eq_none.mp (habove n hn), hvalue⟩
  · rintro ⟨above, m, below, hmaps, habove, hvalue⟩
    exact ⟨above, m, below, hmaps, hvalue, fun n hn => Finmap.lookup_eq_none.mpr (habove n hn)⟩

end Stack

/-! ## Scopes -/

namespace Scope

/-- The maps of a scope, that of its innermost table on top. -/
def stack (s : Scope) : Stack :=
  ⟨s.table.bindings, s.outer.map Table.bindings⟩

theorem maps_stack (s : Scope) : s.stack.maps = s.tables.map Table.bindings :=
  rfl

@[simp] theorem lookup_stack (s : Scope) (name : String) : s.stack.lookup name = s.find? name := by
  rw [Stack.lookup, maps_stack, List.findSome?_map, find?]
  simp [Function.comp_def]

@[simp] theorem stack_insert (s : Scope) (name : String) (value : Value) :
    (s.insert name value).stack = s.stack.insert name value := by
  simp [stack, insert, Stack.insert]

@[simp] theorem stack_erase (s : Scope) (name : String) :
    (s.erase name).stack = s.stack.erase name := by
  simp [stack, erase, Stack.erase]

@[simp] theorem stack_enter (s : Scope) : s.enter.stack = s.stack.push :=
  rfl

theorem contains_eq_isSome (s : Scope) (name : String) :
    s.contains name = (s.find? name).isSome := by
  rw [contains, find?, List.isSome_findSome?]
  rfl

theorem card_keys_top (s : Scope) : s.stack.top.keys.card = s.table.size :=
  s.table.card_keys_bindings

end Scope

end Abacus
