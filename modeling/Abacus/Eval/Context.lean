import Abacus.Diagnostic.Basic
import Abacus.Eval.Basic

/-!
# Contexts

A context names what is being evaluated and knows the contexts it was entered
from.  It turns the place of a fault into a traceback.
-/

namespace Abacus

/-- A name and, if known, the place outside from which it was entered. -/
structure Activation where
  name : String
  entry : Option Location
deriving DecidableEq

/-- An activation and those it was entered from, the nearest first. -/
structure Context where
  activation : Activation
  callers : List Activation
deriving DecidableEq

namespace Context

def root (name : String) : Context :=
  ⟨⟨name, none⟩, []⟩

def child (parent : Context) (name : String) (entry : Option Location) : Context :=
  ⟨⟨name, entry⟩, parent.activation :: parent.callers⟩

/-- The frames of an activation at a place, and of its callers as far as entries are known. -/
def trace (a : Activation) (callers : List Activation) (place : Location) : List Frame :=
  ⟨a.name, place⟩ ::
    match callers, a.entry with
    | caller :: outer, some entry => trace caller outer entry
    | _, _ => []

def traceback (c : Context) (place : Location) : List Frame :=
  trace c.activation c.callers place

end Context

def Eval.Fault.diagnostic (f : Eval.Fault) (c : Context) : Diagnostic :=
  ⟨.runtime, f.cause.message, f.span, c.traceback f.span.location⟩

end Abacus
