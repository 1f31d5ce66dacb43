import Mathlib
import Abacus.Proofs.Diagnostic.Excerpt
import Abacus.Proofs.Expr.Spans
import Abacus.Proofs.Run.Basic

/-!
# Tracebacks

A fault is reported from a context with one frame for each context from there outward,
up to the first that does not say where it was entered or that was entered from nowhere.
A frame has the name of its own context, but its place is where the next context inside
was entered; the innermost frame is at the fault itself.  The report shows the outermost
frame first, as far as its lines can be counted and the whole of it fits in a text.
-/

namespace Abacus

open Text

/-! ## The contexts outward -/

namespace Context

def parent? (c : Context) : Option Context :=
  match c.callers with
  | [] => none
  | caller :: outer => some ⟨caller, outer⟩

@[simp] theorem parent?_root (name : String) : (root name).parent? = none :=
  rfl

@[simp] theorem parent?_child (c : Context) (name : String) (entry : Option Location) :
    (c.child name entry).parent? = some c :=
  rfl

variable {c outer : Context} {entry : Location}

end Context

/-! ## Evaluation in a context -/

namespace Expr

open Eval

variable {e : Expr} {c : Context} {scope : Scope} {d : Diagnostic}

end Expr

namespace Diagnostic

variable {frame : Frame} {frames : List Frame} {d : Diagnostic}

theorem tracebackText_cons (frame : Frame) (outer : List Frame) :
    tracebackText (frame :: outer) =
      (tracebackText outer >>= fun text => frameLine frame >>= fun line => .ok (text ++ line)) :=
  rfl

theorem render_of_headline {text : String} (h : d.headline = .ok text) :
    d.render = (d.span.excerpt >>= fun excerpt => fitted (text ++ " \n\n" ++ excerpt)) := by
  rw [render, h]
  rfl

end Diagnostic

namespace Expr

variable {e : Expr} {c : Context} {scope : Scope} {d : Diagnostic}

end Expr

end Abacus
