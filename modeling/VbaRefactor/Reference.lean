import VbaRefactor.Declaration
import VbaRefactor.Syntax.Argument

/-!
# References

A reference is a use of a name that is bound to a declaration.
-/

namespace VbaRefactor

inductive UsageKind where
  | call
  | assignment
  | raiseEvent
  /-- The result of a function is set inside the function. -/
  | returnValue
  /-- Any other mention. -/
  | bare
deriving DecidableEq, Repr

structure Reference where
  declaration : DeclarationId
  module : ModuleName
  /-- The member in whose body the use stands. -/
  member : DeclarationId
  selection : Extent
  qualified : Extent
  usage : UsageKind
  arguments? : Option ArgumentList
deriving DecidableEq, Repr

def Reference.isQualified (r : Reference) : Bool := r.qualified.span ≠ r.selection.span

end VbaRefactor
