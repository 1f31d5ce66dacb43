import Abacus.Proofs.Eval.Postorder
import Abacus.Proofs.Parse.Grammar
import Abacus.Proofs.Scan.Tiling

/-!
# The spans of a tree

A node of a tree that was parsed has a span that starts where one of the tokens starts
and stops where another one stops.  With tokens in order, all these spans are proper
stretches of the source, and the marks of names are the tokens of the names.
-/

namespace Abacus

open Scan

theorem Span.Proper.through {s : Source} {first last : Span} (hfirst : first.Proper s)
    (hlast : last.Proper s) (h : first.stop.offset <= last.start.offset) :
    (first.through last).Proper s := by
  have hlt : first.start.offset < last.stop.offset := by
    have hfirst := hfirst.start_lt
    have hlast := hlast.start_lt
    omega
  exact {
    source_eq := hfirst.source_eq
    stopSource_eq := hlast.stopSource_eq
    start_eq := hfirst.start_eq
    stop_eq := hlast.stop_eq
    start_le := Nat.le_of_lt hlt
    stop_le := hlast.stop_le
    start_lt := hlt }

namespace Expr

def name? : Expr -> Option String
  | access name _ => some name
  | assign name _ _ => some name
  | _ => none

theorem mem_postorder_self (e : Expr) : e ∈ e.postorder := by
  cases e <;> simp [postorder]

/-- A tree with spans between those of some tokens, of which its nodes are made. -/
structure Spread (s : Source) (ts : List Token) (tree : Expr) : Prop where
  start_mem : ∃ t ∈ ts, tree.span.start = t.span.start
  stop_mem : ∃ t ∈ ts, tree.span.stop = t.span.stop
  proper : ∀ node ∈ tree.postorder, node.span.Proper s ∧ node.mark.Proper s
  token_mem : ∀ node ∈ tree.postorder, node.token ∈ ts

namespace Spread

variable {s : Source} {ts us ls rs : List Token} {tree left right : Expr} {mark : Span}

theorem mono (h : Spread s ts tree) (hts : ∀ t ∈ ts, t ∈ us) : Spread s us tree where
  start_mem := by
    obtain ⟨t, ht, hstart⟩ := h.start_mem
    exact ⟨t, hts t ht, hstart⟩
  stop_mem := by
    obtain ⟨t, ht, hstop⟩ := h.stop_mem
    exact ⟨t, hts t ht, hstop⟩
  proper := h.proper
  token_mem node hnode := hts _ (h.token_mem node hnode)

theorem span_proper (h : Spread s ts tree) : tree.span.Proper s :=
  (h.proper tree tree.mem_postorder_self).1

theorem stop_le_start {stop : Nat} (h : Spread s ts tree)
    (hstop : ∀ u ∈ ts, stop <= u.span.start.offset) : stop <= tree.span.start.offset := by
  obtain ⟨u, hu, hstart⟩ := h.start_mem
  rw [hstart]
  exact hstop u hu

theorem leaf {t : Token} (ht : t.span.Proper s) (hnodes : tree.postorder = [tree])
    (hspan : tree.span = t.span) (htoken : tree.token = t) : Spread s [t] tree where
  start_mem := ⟨t, List.mem_singleton.mpr rfl, by rw [hspan]⟩
  stop_mem := ⟨t, List.mem_singleton.mpr rfl, by rw [hspan]⟩
  proper node hnode := by
    rw [hnodes, List.mem_singleton] at hnode
    rw [hnode, hspan, mark, htoken]
    exact ⟨ht, ht⟩
  token_mem node hnode := by
    rw [hnodes, List.mem_singleton] at hnode
    rw [hnode, htoken]
    exact List.mem_singleton.mpr rfl

theorem assign {name : String} (hmark : mark.Proper s) (hname : ⟨.identifier name, mark⟩ ∈ ts)
    (h : Spread s ts tree) : Spread s ts (.assign name mark tree) where
  start_mem := ⟨_, hname, rfl⟩
  stop_mem := ⟨_, hname, rfl⟩
  proper node hnode := by
    rcases List.mem_append.mp hnode with hnode | hnode
    · exact h.proper node hnode
    · rw [List.mem_singleton.mp hnode]
      exact ⟨hmark, hmark⟩
  token_mem node hnode := by
    rcases List.mem_append.mp hnode with hnode | hnode
    · exact h.token_mem node hnode
    · rw [List.mem_singleton.mp hnode]
      exact hname

theorem unary {sign : Sign} (hmark : mark.Proper s)
    (hbefore : ∀ u ∈ ts, mark.stop.offset <= u.span.start.offset) (h : Spread s ts tree) :
    Spread s (⟨.operator sign.operator, mark⟩ :: ts) (.unary sign mark tree) where
  start_mem := ⟨_, List.mem_cons_self .., rfl⟩
  stop_mem := by
    obtain ⟨u, hu, hstop⟩ := h.stop_mem
    exact ⟨u, List.mem_cons_of_mem _ hu, hstop⟩
  proper node hnode := by
    rcases List.mem_append.mp hnode with hnode | hnode
    · exact h.proper node hnode
    · rw [List.mem_singleton.mp hnode]
      exact ⟨hmark.through h.span_proper (h.stop_le_start hbefore), hmark⟩
  token_mem node hnode := by
    rcases List.mem_append.mp hnode with hnode | hnode
    · exact List.mem_cons_of_mem _ (h.token_mem node hnode)
    · rw [List.mem_singleton.mp hnode]
      exact List.mem_cons_self ..

theorem binary {op : Operator} (hmark : mark.Proper s) (hleft : Spread s ls left)
    (hright : Spread s rs right) (hbefore : ∀ u ∈ ls, ∀ v ∈ rs, Before u v) :
    Spread s (ls ++ ⟨.operator op, mark⟩ :: rs) (.binary op mark left right) where
  start_mem := by
    obtain ⟨u, hu, hstart⟩ := hleft.start_mem
    exact ⟨u, List.mem_append_left _ hu, hstart⟩
  stop_mem := by
    obtain ⟨u, hu, hstop⟩ := hright.stop_mem
    exact ⟨u, List.mem_append_right _ (List.mem_cons_of_mem _ hu), hstop⟩
  proper node hnode := by
    simp only [postorder, List.mem_append, List.mem_singleton] at hnode
    rcases hnode with hnode | hnode | rfl
    · exact hleft.proper node hnode
    · exact hright.proper node hnode
    · obtain ⟨u, hu, hstop⟩ := hleft.stop_mem
      have hle := hright.stop_le_start (hbefore u hu)
      exact ⟨hleft.span_proper.through hright.span_proper (hstop ▸ hle), hmark⟩
  token_mem node hnode := by
    simp only [postorder, List.mem_append, List.mem_singleton] at hnode
    rcases hnode with hnode | hnode | rfl
    · exact List.mem_append_left _ (hleft.token_mem node hnode)
    · exact List.mem_append_right _ (List.mem_cons_of_mem _ (hright.token_mem node hnode))
    · exact List.mem_append_right _ (List.mem_cons_self ..)

end Spread

end Expr

namespace Parse

variable {s : Source} {ts ls rs : List Token} {tree left right : Expr}

structure Laid (s : Source) (ts : List Token) : Prop where
  proper : ∀ t ∈ ts, t.span.Proper s
  pairwise : ts.Pairwise Before

theorem Laid.tail {t : Token} (h : Laid s (t :: ts)) : Laid s ts where
  proper u hu := h.proper u (List.mem_cons_of_mem t hu)
  pairwise := (List.pairwise_cons.mp h.pairwise).2

theorem Laid.front (h : Laid s (ls ++ rs)) : Laid s ls where
  proper u hu := h.proper u (List.mem_append_left rs hu)
  pairwise := (List.pairwise_append.mp h.pairwise).1

theorem Laid.back (h : Laid s (ls ++ rs)) : Laid s rs where
  proper u hu := h.proper u (List.mem_append_right ls hu)
  pairwise := (List.pairwise_append.mp h.pairwise).2.1

theorem Laid.binary {op : Operator} {mark : Span} (h : Laid s (ls ++ ⟨.operator op, mark⟩ :: rs))
    (hleft : Laid s ls -> left.Spread s ls) (hright : Laid s rs -> right.Spread s rs) :
    Expr.Spread s (ls ++ ⟨.operator op, mark⟩ :: rs) (.binary op mark left right) := by
  have hmark := h.proper _ (List.mem_append_right ls (List.mem_cons_self ..))
  refine .binary hmark (hleft h.front) (hright h.back.tail) ?_
  intro u hu v hv
  exact (List.pairwise_append.mp h.pairwise).2.2 u hu v (List.mem_cons_of_mem _ hv)

theorem Laid.unary {mark : Span} (sign : Sign)
    (h : Laid s (⟨.operator sign.operator, mark⟩ :: ts))
    (hoperand : Laid s ts -> tree.Spread s ts) :
    Expr.Spread s (⟨.operator sign.operator, mark⟩ :: ts) (.unary sign mark tree) :=
  .unary (h.proper _ (List.mem_cons_self ..)) (List.pairwise_cons.mp h.pairwise).1
    (hoperand h.tail)

/-- The tree of a derivation is spread over its tokens. -/
theorem Derives.spread {symbol : Symbol} (h : Derives symbol ts tree) (hts : Laid s ts) :
    tree.Spread s ts := by
  induction h with
  | @assign _ mark _ name ts value hvalue ih =>
      have hmark := hts.proper ⟨.identifier name, mark⟩ (by simp)
      refine .assign hmark (by simp) ((ih hts.tail.tail.tail).mono ?_)
      intro t ht
      simp [ht]
  | expression h ih => exact ih hts
  | sum h ih => exact ih hts
  | addition hop hleft hright ihleft ihright => exact hts.binary ihleft ihright
  | product h ih => exact ih hts
  | multiplication hop hleft hright ihleft ihright => exact hts.binary ihleft ihright
  | plus h ih => exact hts.unary .plus ih
  | minus h ih => exact hts.unary .minus ih
  | factor h ih => exact ih hts
  | power h ih => exact ih hts
  | exponentiation hleft hright ihleft ihright => exact hts.binary ihleft ihright
  | literal => exact .leaf (hts.proper _ (List.mem_singleton.mpr rfl)) rfl rfl rfl
  | access => exact .leaf (hts.proper _ (List.mem_singleton.mpr rfl)) rfl rfl rfl
  | paren h ih =>
      refine (ih hts.front.tail).mono ?_
      intro t ht
      simp [ht]

end Parse

namespace Expr

variable {s : Source} {tokens : List Token} {tree node : Expr}

theorem text_of_identifier {name : String} {mark : Span}
    (h : Lexical ⟨.identifier name, mark⟩) : mark.text = name := by
  obtain ⟨grows, hlexeme⟩ := h
  obtain ⟨-, hname, -⟩ := hlexeme.word_of_identifier
  rw [hname, String.ofList_toList]

/-- A tree that was parsed is derived from the tokens before the end of the input. -/
theorem exists_derives (hscan : s.scan = .ok tokens) (hparse : Expr.parse tokens = .ok tree) :
    ∃ us q, tokens = us ++ [⟨.eof, .point s q⟩] ∧ (∀ t ∈ us, Located s t) ∧ Parse.Laid s us ∧
      Parse.Derives .expression us tree := by
  have hscans := Source.scan_eq_ok_iff.mp hscan
  have hpairwise := hscans.pairwise
  obtain ⟨us, q, rfl, -, hlocated⟩ := hscans.located s.at_zero
  have hus : ∀ t ∈ us, t.kind ≠ .eof := fun t ht => (hlocated t ht).lexical.kind_ne_eof
  refine ⟨us, q, rfl, hlocated, ⟨?_, (List.pairwise_append.mp hpairwise).1⟩, ?_⟩
  · exact fun t ht => (hlocated t ht).proper
  · exact (Parse.ofTokens_append_eof_iff hus rfl).mp (parse_eq_ok_iff.mp hparse)

/-- Every node of a tree that was parsed is made from one of the tokens. -/
theorem token_mem_of_parse (hscan : s.scan = .ok tokens) (hparse : Expr.parse tokens = .ok tree)
    (hnode : node ∈ tree.postorder) : node.token ∈ tokens := by
  obtain ⟨us, q, rfl, -, hlaid, hderives⟩ := exists_derives hscan hparse
  exact List.mem_append_left _ ((hderives.spread hlaid).token_mem node hnode)

theorem token_of_name? {name : String} (h : node.name? = some name) :
    node.token = ⟨.identifier name, node.mark⟩ := by
  cases node <;> cases h <;> rfl

/-- A tree that was read has proper spans and marks, and its names are the texts of their marks. -/
theorem spans_of_parse (hscan : s.scan = .ok tokens) (hparse : Expr.parse tokens = .ok tree)
    (hnode : node ∈ tree.postorder) :
    node.span.Proper s ∧ node.mark.Proper s ∧
      ∀ name, node.name? = some name -> node.mark.text = name := by
  obtain ⟨us, q, -, hlocated, hlaid, hderives⟩ := exists_derives hscan hparse
  have hspread := hderives.spread hlaid
  refine ⟨(hspread.proper node hnode).1, (hspread.proper node hnode).2, ?_⟩
  intro name hname
  have hmem := hspread.token_mem node hnode
  rw [token_of_name? hname] at hmem
  exact text_of_identifier (hlocated _ hmem).lexical

end Expr

end Abacus
