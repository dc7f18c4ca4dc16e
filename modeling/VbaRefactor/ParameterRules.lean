import VbaRefactor.Permutation
import VbaRefactor.Text.Blank

/-!
# Rules on parameter lists

Required parameters come before optional ones, and a `ParamArray` comes last. The accessors of one
property have the same parameters, the assigned value apart.
-/

namespace VbaRefactor

namespace Parameter

/-- The first required parameter after an optional one; `seen` says whether one came before. -/
def requiredAfterOptional? (seen : Bool) : List Parameter → Option Parameter
  | [] => none
  | p :: rest =>
    if p.isOptional then requiredAfterOptional? true rest
    else if seen && !p.isParamArray then some p
    else requiredAfterOptional? seen rest

/-- The first `ParamArray` that is not last. -/
def earlyParamArray? (parameters : List Parameter) : Option Parameter :=
  parameters.dropLast.find? (·.isParamArray)

/-- No required parameter follows an optional one (`optional_trailing`). -/
def optionalsLast (parameters : List Parameter) : Bool :=
  (requiredAfterOptional? false parameters).isNone

def paramArrayLast (parameters : List Parameter) : Bool := (earlyParamArray? parameters).isNone

/-- The parameters keep the rules in the new order (`validate_order`). -/
def checkOrder (parameters : List Parameter) (p : Permutation) : Except OrderFault Unit :=
  if p.size ≠ parameters.length then .error (.notAPermutation parameters.length p.oldPlaces)
  else
    let reordered := p.apply parameters
    match requiredAfterOptional? false reordered with
    | some found => .error (.optionalNotTrailing found.name)
    | none =>
      match earlyParamArray? reordered with
      | some found => .error (.paramArrayNotLast found.name)
      | none => .ok ()

/-- The type without blanks and case; a parameter without a type is a `Variant`. -/
def plainType (p : Parameter) : Text :=
  Text.fold ((p.type?.getD "Variant").filter fun c => !isBlank c)

def agrees (p q : Parameter) : Bool := decide (p.name.SameName q.name) && p.plainType == q.plainType

end Parameter

/-- Two accessors have the same parameters, the assigned value apart. -/
def Declaration.sameParameters (a b : Declaration) : Bool :=
  a.reorderable.length == b.reorderable.length
    && (a.reorderable.zip b.reorderable).all fun (p, q) => p.agrees q

end VbaRefactor
