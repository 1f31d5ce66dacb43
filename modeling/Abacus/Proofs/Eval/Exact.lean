import Mathlib
import Abacus.Proofs.Eval.Postorder
import Abacus.Proofs.Number.Exact

/-!
# Evaluation in unbounded integers

An expression has a value in unbounded integers if it divides nothing, has no doubles among
its literals, reads names that hold integers only, and has no negative exponents.  Evaluation
has an integer as its result just if this value, and that of every subexpression, is one that
64 bits hold; and then it is this value.
-/

namespace Abacus

open Number

/-! ## Exact operations -/

def Number.toInt? : Number -> Option Int
  | int n => some n.toInt
  | float _ => none

def Sign.exact : Sign -> Int -> Int
  | plus, z => z
  | minus, z => -z

/-- The exact value of an operator; there is none for a division or a negative exponent. -/
def Operator.integer? : Operator -> Int -> Int -> Option Int
  | add, a, b => some (a + b)
  | sub, a, b => some (a - b)
  | mul, a, b => some (a * b)
  | div, _, _ => none
  | pow, a, b => if 0 ≤ b then some (a ^ b.toNat) else none

theorem Number.toInt?_eq_some_iff {a : Number} {n : Int64} :
    a.toInt? = some n.toInt ↔ a = int n := by
  cases a with
  | int m => simp [toInt?, Int64.toInt_inj]
  | float x => simp [toInt?]

theorem Sign.apply_eq_int_iff {sign : Sign} {a : Number} {n : Int64} :
    sign.apply a = int n ↔ ∃ x : Int64, a = int x ∧ sign.exact x.toInt = n.toInt := by
  cases sign with
  | plus =>
      constructor
      · intro h
        exact ⟨n, h, rfl⟩
      · rintro ⟨x, rfl, hx⟩
        exact congrArg int (Int64.toInt_inj.mp hx)
  | minus =>
      have hone : (-1 : Int64).toInt = -1 := rfl
      constructor
      · intro h
        obtain ⟨x, y, rfl, hy, hproduct⟩ := arith_eq_int_iff.mp h
        cases hy
        rw [hone, Option.some.injEq, Int.mul_neg, Int.mul_one] at hproduct
        exact ⟨x, rfl, hproduct⟩
      · rintro ⟨x, rfl, hx⟩
        refine arith_eq_int_iff.mpr ⟨x, -1, rfl, rfl, ?_⟩
        rw [hone, Int.mul_neg, Int.mul_one]
        exact congrArg some hx

theorem Operator.value?_eq_int_iff {op : Operator} {a b : Number} {n : Int64} :
    op.value? a b = some (int n) ↔
      ∃ x y : Int64, a = int x ∧ b = int y ∧ op.integer? x.toInt y.toInt = some n.toInt ∧
        (op = .pow -> y.toInt < 4294967296) := by
  cases op with
  | add => exact Option.some_inj.trans (arith_eq_int_iff.trans (by simp [Operator.integer?]))
  | sub => exact Option.some_inj.trans (arith_eq_int_iff.trans (by simp [Operator.integer?]))
  | mul => exact Option.some_inj.trans (arith_eq_int_iff.trans (by simp [Operator.integer?]))
  | div =>
      constructor
      · intro h
        rw [Operator.value?] at h
        split at h
        · cases h
        · cases h
      · rintro ⟨x, y, -, -, hexact, -⟩
        cases hexact
  | pow =>
      rw [Operator.value?, Option.some_inj, pow_eq_int_iff]
      constructor
      · rintro ⟨x, y, hx, hy, hnonneg, hlt, hpow⟩
        refine ⟨x, y, hx, hy, ?_, fun _ => hlt⟩
        rw [Operator.integer?, if_pos hnonneg, hpow]
      · rintro ⟨x, y, hx, hy, hexact, hlt⟩
        obtain ⟨hnonneg, hpow⟩ := Option.ite_none_right_eq_some.mp hexact
        exact ⟨x, y, hx, hy, hnonneg, hlt rfl, Option.some.inj hpow⟩

/-! ## Exact evaluation -/

abbrev Integers : Type :=
  String -> Option Int

def Scope.integers (s : Scope) : Integers :=
  fun name => (s.find? name).bind (·.number.toInt?)

theorem Scope.integers_insert (s : Scope) (name : String) {value : Value} {n : Int64}
    (h : value.number = int n) :
    (s.insert name value).integers = Function.update s.integers name (some n.toInt) := by
  funext other
  by_cases hother : name = other
  · subst hother
    simp [integers, h, toInt?]
  · simp [integers, hother, Function.update_of_ne (Ne.symm hother)]

/-- A value in unbounded integers, with what the names hold then. -/
structure Exact where
  value : Int
  names : Integers

namespace Expr

def exact (e : Expr) (names : Integers) : Option Exact :=
  match e with
  | literal value _ => value.toInt?.map fun z => ⟨z, names⟩
  | access name _ => (names name).map fun z => ⟨z, names⟩
  | assign name _ body =>
      (body.exact names).map fun o => ⟨o.value, Function.update o.names name (some o.value)⟩
  | unary sign _ operand => (operand.exact names).map fun o => ⟨sign.exact o.value, o.names⟩
  | binary op _ left right =>
      (left.exact names).bind fun l =>
        (right.exact l.names).bind fun r =>
          (op.integer? l.value r.value).map fun z => ⟨z, r.names⟩

def exactValue? (e : Expr) (names : Integers) : Option Int :=
  (e.exact names).map Exact.value

def exactNames (e : Expr) (names : Integers) : Integers :=
  (e.exact names).elim names Exact.names

/--
An expression and its subexpressions, each with the state that its evaluation starts from.

A right operand starts from the state that the left one leaves.
-/
def visits {σ : Type} (leaves : Expr -> σ -> σ) : Expr -> σ -> List (Expr × σ)
  | literal value mark, s => [(literal value mark, s)]
  | access name mark, s => [(access name mark, s)]
  | assign name mark body, s => (assign name mark body, s) :: body.visits leaves s
  | unary sign mark operand, s => (unary sign mark operand, s) :: operand.visits leaves s
  | binary op mark left right, s =>
      (binary op mark left right, s) ::
        (left.visits leaves s ++ right.visits leaves (leaves left s))

theorem map_fst_visits {σ : Type} (leaves : Expr -> σ -> σ) (e : Expr) (s : σ) :
    (e.visits leaves s).map Prod.fst = e.nodes := by
  induction e generalizing s with
  | literal value mark => rfl
  | access name mark => rfl
  | assign name mark body ih => simp [visits, nodes, ih]
  | unary sign mark operand ih => simp [visits, nodes, ih]
  | binary op mark left right ihleft ihright => simp [visits, nodes, ihleft, ihright]

def evaluations (e : Expr) (scope : Scope) : List (Expr × Scope) :=
  e.visits (fun e scope => (e.eval scope).scope) scope

def exactEvaluations (e : Expr) (names : Integers) : List (Expr × Integers) :=
  e.visits exactNames names

def EvalsTo (e : Expr) (scope : Scope) (n : Int64) : Prop :=
  ∃ value, (e.eval scope).result = .ok value ∧ value.number = int n

/-! ## One case for each kind of expression -/

section

variable {scope : Scope} {n : Int64} {mark : Span} {name : String}

theorem evalsTo_literal {value : Number} :
    (literal value mark).EvalsTo scope n ↔ value = int n := by
  simp [EvalsTo, eval]

theorem evalsTo_access :
    (access name mark).EvalsTo scope n ↔ scope.integers name = some n.toInt := by
  cases hfind : scope.find? name with
  | none => simp [EvalsTo, eval, Scope.integers, hfind]
  | some value => simp [EvalsTo, eval, Scope.integers, hfind, toInt?_eq_some_iff]

theorem evalsTo_assign {body : Expr} :
    (assign name mark body).EvalsTo scope n ↔ body.EvalsTo scope n := by
  unfold EvalsTo
  cases hbody : (body.eval scope).result with
  | error fault => simp [eval, hbody]
  | ok value => simp [eval, hbody]

theorem evalsTo_unary {sign : Sign} {operand : Expr} :
    (unary sign mark operand).EvalsTo scope n ↔
      ∃ m, operand.EvalsTo scope m ∧ sign.exact m.toInt = n.toInt := by
  unfold EvalsTo
  cases hoperand : (operand.eval scope).result with
  | error fault => simp [eval, hoperand]
  | ok value => simp [eval, hoperand, Sign.apply_eq_int_iff]

theorem evalsTo_binary {op : Operator} {left right : Expr} :
    (binary op mark left right).EvalsTo scope n ↔
      ∃ x y, left.EvalsTo scope x ∧ right.EvalsTo (left.eval scope).scope y ∧
        op.integer? x.toInt y.toInt = some n.toInt ∧ (op = .pow -> y.toInt < 4294967296) := by
  unfold EvalsTo
  cases hleft : (left.eval scope).result with
  | error fault => simp [eval, hleft]
  | ok a =>
      cases hright : (right.eval (left.eval scope).scope).result with
      | error fault => simp [eval, hleft, hright]
      | ok b =>
          have hresult : (∃ value, ((binary op mark left right).eval scope).result = .ok value ∧
              value.number = int n) ↔ op.value? a.number b.number = some (int n) := by
            cases hop : op.value? a.number b.number with
            | none => simp [eval, hleft, hright, hop]
            | some c => simp [eval, hleft, hright, hop]
          rw [hresult, Operator.value?_eq_int_iff]
          simp

theorem scope_access : ((access name mark).eval scope).scope = scope := by
  cases hfind : scope.find? name with
  | none => simp [eval, hfind]
  | some value => simp [eval, hfind]

theorem scope_unary {sign : Sign} {operand : Expr} :
    ((unary sign mark operand).eval scope).scope = (operand.eval scope).scope := by
  cases hoperand : (operand.eval scope).result with
  | error fault => simp [eval, hoperand]
  | ok value => simp [eval, hoperand]

theorem integers_assign {body : Expr} (h : body.EvalsTo scope n) :
    ((assign name mark body).eval scope).scope.integers =
      Function.update (body.eval scope).scope.integers name (some n.toInt) := by
  obtain ⟨value, hbody, hvalue⟩ := h
  simp only [eval, hbody]
  exact Scope.integers_insert _ name hvalue

theorem scope_binary {op : Operator} {left right : Expr} {x : Int64}
    (h : left.EvalsTo scope x) :
    ((binary op mark left right).eval scope).scope =
      (right.eval (left.eval scope).scope).scope := by
  obtain ⟨a, hleft, -⟩ := h
  simp only [eval, hleft]
  cases (right.eval (left.eval scope).scope).result with
  | error fault => rfl
  | ok b =>
      cases hop : op.value? a.number b.number with
      | none => simp only [hop]
      | some c => simp only [hop]

end

/-! ## What is evaluated to an integer has that value -/

/-- An integer result is exact, and so is what the names hold then. -/
theorem exact_of_evalsTo {e : Expr} {scope : Scope} {n : Int64} (h : e.EvalsTo scope n) :
    e.exact scope.integers = some ⟨n.toInt, (e.eval scope).scope.integers⟩ := by
  induction e generalizing scope n with
  | literal value mark =>
      rw [evalsTo_literal.mp h]
      rfl
  | access name mark => rw [exact, evalsTo_access.mp h, scope_access, Option.map_some]
  | assign name mark body ih =>
      have hbody := evalsTo_assign.mp h
      rw [exact, ih hbody, integers_assign hbody, Option.map_some]
  | unary sign mark operand ih =>
      obtain ⟨m, hm, hn⟩ := evalsTo_unary.mp h
      rw [exact, ih hm, scope_unary, Option.map_some, hn]
  | binary op mark left right ihleft ihright =>
      obtain ⟨x, y, hx, hy, hn, -⟩ := evalsTo_binary.mp h
      rw [exact, ihleft hx, Option.bind_some, ihright hy, Option.bind_some, hn, scope_binary hx,
        Option.map_some]

/-- Where a result is an integer, so are those of all subexpressions. -/
theorem evaluations_of_evalsTo {e : Expr} {scope : Scope} {n : Int64} (h : e.EvalsTo scope n) :
    ∀ p ∈ e.evaluations scope, ∃ m, p.1.EvalsTo p.2 m := by
  induction e generalizing scope n with
  | literal value mark => simpa [evaluations, visits] using ⟨n, h⟩
  | access name mark => simpa [evaluations, visits] using ⟨n, h⟩
  | assign name mark body ih =>
      simp only [evaluations, visits, List.forall_mem_cons]
      exact ⟨⟨n, h⟩, ih (evalsTo_assign.mp h)⟩
  | unary sign mark operand ih =>
      obtain ⟨m, hm, -⟩ := evalsTo_unary.mp h
      simp only [evaluations, visits, List.forall_mem_cons]
      exact ⟨⟨n, h⟩, ih hm⟩
  | binary op mark left right ihleft ihright =>
      obtain ⟨x, y, hx, hy, -⟩ := evalsTo_binary.mp h
      simp only [evaluations, visits, List.forall_mem_cons, List.forall_mem_append]
      exact ⟨⟨n, h⟩, ihleft hx, ihright hy⟩

theorem not_division_of_evalsTo {e : Expr} {scope : Scope} {n : Int64} (h : e.EvalsTo scope n)
    (mark : Span) (left right : Expr) : e ≠ binary .div mark left right := by
  rintro rfl
  obtain ⟨x, y, -, -, hexact, -⟩ := evalsTo_binary.mp h
  cases hexact

/-! ## What has a value within bounds is evaluated to it -/

/--
The values of an expression and its subexpressions in unbounded integers fit, and so do the
exponents.
-/
structure InBounds (e : Expr) (names : Integers) : Prop where
  value : ∀ p ∈ e.exactEvaluations names, ∃ z, p.1.exactValue? p.2 = some z ∧ Fits z
  exponent : ∀ p ∈ e.exactEvaluations names, ∀ mark left right,
    p.1 = binary .pow mark left right ->
      ∃ z, right.exactValue? (left.exactNames p.2) = some z ∧ 0 ≤ z ∧ z < 4294967296

theorem self_mem_exactEvaluations (e : Expr) (names : Integers) :
    (e, names) ∈ e.exactEvaluations names := by
  cases e <;> exact List.mem_cons_self

namespace InBounds

variable {e : Expr} {names : Integers}

theorem mono (h : e.InBounds names) {sub : Expr} {inner : Integers}
    (hsub : sub.exactEvaluations inner ⊆ e.exactEvaluations names) : sub.InBounds inner :=
  ⟨fun p hp => h.value p (hsub hp), fun p hp => h.exponent p (hsub hp)⟩

theorem exists_exact (h : e.InBounds names) :
    ∃ (n : Int64) (after : Integers), e.exact names = some ⟨n.toInt, after⟩ := by
  obtain ⟨z, hz, hfits⟩ := h.value _ (self_mem_exactEvaluations e names)
  obtain ⟨o, ho, rfl⟩ := Option.map_eq_some_iff.mp hz
  refine ⟨Int64.ofInt o.value, o.names, ?_⟩
  rw [ho, toInt_ofInt hfits]

end InBounds

theorem evalsTo_of_inBounds {e : Expr} {scope : Scope} (h : e.InBounds scope.integers) :
    ∃ n, e.EvalsTo scope n := by
  induction e generalizing scope with
  | literal value mark =>
      obtain ⟨n, after, hn⟩ := h.exists_exact
      obtain ⟨z, hz, hafter⟩ := Option.map_eq_some_iff.mp hn
      cases hafter
      exact ⟨n, evalsTo_literal.mpr (toInt?_eq_some_iff.mp hz)⟩
  | access name mark =>
      obtain ⟨n, after, hn⟩ := h.exists_exact
      obtain ⟨z, hz, hafter⟩ := Option.map_eq_some_iff.mp hn
      cases hafter
      exact ⟨n, evalsTo_access.mpr hz⟩
  | assign name mark body ih =>
      obtain ⟨n, hn⟩ := ih (h.mono (List.subset_cons_self _ _))
      exact ⟨n, evalsTo_assign.mpr hn⟩
  | unary sign mark operand ih =>
      obtain ⟨m, hm⟩ := ih (h.mono (List.subset_cons_self _ _))
      obtain ⟨n, after, hn⟩ := h.exists_exact
      rw [exact, exact_of_evalsTo hm, Option.map_some] at hn
      have hvalue : sign.exact m.toInt = n.toInt := congrArg Exact.value (Option.some.inj hn)
      exact ⟨n, evalsTo_unary.mpr ⟨m, hm, hvalue⟩⟩
  | binary op mark left right ihleft ihright =>
      have hall : (binary op mark left right).exactEvaluations scope.integers = _ :: (_ ++ _) := rfl
      obtain ⟨x, hx⟩ := ihleft (h.mono (by
        rw [hall]
        exact List.subset_cons_of_subset _ (List.subset_append_left _ _)))
      have hnames : left.exactNames scope.integers = (left.eval scope).scope.integers := by
        rw [exactNames, exact_of_evalsTo hx, Option.elim_some]
      obtain ⟨y, hy⟩ := ihright (h.mono (by
        rw [hall, ← hnames]
        exact List.subset_cons_of_subset _ (List.subset_append_right _ _)))
      obtain ⟨n, after, hn⟩ := h.exists_exact
      rw [exact, exact_of_evalsTo hx, Option.bind_some, exact_of_evalsTo hy, Option.bind_some] at hn
      obtain ⟨z, hz, hafter⟩ := Option.map_eq_some_iff.mp hn
      have hvalue : z = n.toInt := congrArg Exact.value hafter
      refine ⟨n, evalsTo_binary.mpr ⟨x, y, hx, hy, hvalue ▸ hz, ?_⟩⟩
      rintro rfl
      obtain ⟨e, he, -, hlt⟩ :=
        h.exponent _ (self_mem_exactEvaluations _ _) mark left right rfl
      rw [hnames, exactValue?, exact_of_evalsTo hy, Option.map_some] at he
      rwa [← Option.some.inj he] at hlt

/--
Integer results are exact.

If the result is an integer, nothing is divided, all subexpressions have integers as their
results, and the result is the value in unbounded integers.  Conversely, if all
subexpressions have values in unbounded integers that fit, and all exponents fit in 32 bits,
then the result is an integer, and hence that value.
-/
theorem eval_integer (tree : Expr) (scope : Scope) :
    (∀ n, tree.EvalsTo scope n ->
      (∀ node ∈ tree.nodes, ∀ mark left right, node ≠ binary .div mark left right) ∧
      (∀ p ∈ tree.evaluations scope, ∃ m, p.1.EvalsTo p.2 m) ∧
      tree.exactValue? scope.integers = some n.toInt) ∧
    (tree.InBounds scope.integers ->
      ∃ n, tree.EvalsTo scope n ∧ tree.exactValue? scope.integers = some n.toInt) := by
  have hexact : ∀ n, tree.EvalsTo scope n -> tree.exactValue? scope.integers = some n.toInt := by
    intro n hn
    rw [exactValue?, exact_of_evalsTo hn, Option.map_some]
  constructor
  · intro n hn
    have hall := evaluations_of_evalsTo hn
    refine ⟨?_, hall, hexact n hn⟩
    intro node hnode
    rw [← map_fst_visits (fun e scope => (e.eval scope).scope) tree scope] at hnode
    obtain ⟨p, hp, rfl⟩ := List.mem_map.mp hnode
    obtain ⟨m, hm⟩ := hall p hp
    exact not_division_of_evalsTo hm
  · intro hbounds
    obtain ⟨n, hn⟩ := evalsTo_of_inBounds hbounds
    exact ⟨n, hn, hexact n hn⟩

/-- The expression `(var x = -2) ^ 63 - (x + 2)`. -/
def lowest (mark : Span) : Expr :=
  .binary .sub mark
    (.binary .pow mark
      (.assign "x" mark (.unary .minus mark (.literal (.int 2) mark)))
      (.literal (.int 63) mark))
    (.binary .add mark (.access "x" mark) (.literal (.int 2) mark))

theorem eval_integer_lowest :
    let scope := Scope.ofTable .globals
    let tree := lowest (.point ⟨"", ""⟩ .zero)
    ∃ n, tree.EvalsTo scope n ∧ n.toInt = -9223372036854775808 ∧
      ∀ p ∈ tree.evaluations scope, ∃ m, p.1.EvalsTo p.2 m := by
  intro scope tree
  have hfits : (tree.exactEvaluations scope.integers).all
      (fun p => (p.1.exactValue? p.2).any (fun z => Fits z)) = true := by decide
  have hvalue : tree.exactValue? scope.integers = some (-9223372036854775808) := by decide
  have hbounds : tree.InBounds scope.integers := by
    constructor
    · intro p hp
      have hp := List.all_eq_true.mp hfits p hp
      simpa [Option.any_eq_true] using hp
    · intro p hp mark left right hpow
      simp only [tree, lowest, exactEvaluations, visits, List.cons_append, List.nil_append,
        List.mem_cons, List.not_mem_nil, or_false] at hp
      rcases hp with rfl | rfl | rfl | rfl | rfl | rfl | rfl | rfl | rfl <;> cases hpow
      exact ⟨63, rfl, by decide, by decide⟩
  obtain ⟨n, hn, hexact⟩ := (eval_integer tree scope).2 hbounds
  refine ⟨n, hn, ?_, ((eval_integer tree scope).1 n hn).2.1⟩
  exact (Option.some.inj (hvalue.symm.trans hexact)).symm

end Expr

end Abacus
