import VbaRefactor.Json.Reader
import VbaRefactor.Plan.Basic

/-!
# Plan documents

A plan is written as a JSON document: an object with the list `steps`, each step an object with the
name of its `action` and its fields. Wherever an object with known fields stands, an array of their
values in order may stand as well; fields that are not known are passed over.
-/

namespace VbaRefactor

open Json (Value)

namespace ReorderStep

def ofValue? (v : Value) : Option ReorderStep := do
  match ← v.fields? ["target", "kind", "order", "interface"] with
  | [some target, kind?, some order, interface?] =>
    return ⟨← target.text?, ← Value.optionalText? kind?, ← order.texts?,
      ← Value.optionalText? interface?⟩
  | _ => none

end ReorderStep

namespace FieldStep

def ofValue? (v : Value) : Option FieldStep := do
  match ← v.fields? ["field", "property", "read_only"] with
  | [some field, property?, readOnly?] =>
    return ⟨← field.text?, ← Value.optionalText? property?, ← Value.flag? readOnly?⟩
  | _ => none

end FieldStep

namespace RecordStep

/-- The record that a field describes which may be absent or `null`. -/
def ofField? : Option Value → Option (Option RecordStep)
  | none | some .null => some none
  | some v => do
    match ← v.fields? ["existing"] with
    | [existing?] => return some ⟨← Value.optionalText? existing?⟩
    | _ => none

end RecordStep

namespace EncapsulateStep

def ofValue? (v : Value) : Option EncapsulateStep := do
  match ← v.fields? ["module", "fields", "object_state", "indent"] with
  | [some module, some fields, record?, indent?] =>
    return ⟨← module.text?, ← (← fields.items?).mapM FieldStep.ofValue?,
      ← RecordStep.ofField? record?, ← Value.flag? indent?⟩
  | _ => none

end EncapsulateStep

namespace Step

/-- The step with an action whose fields a value gives. -/
def ofAction? (action : Value) (fields : Value) : Option Step := do
  match String.ofList (← action.text?) with
  | "reorder" => return .reorder (← ReorderStep.ofValue? fields)
  | "encapsulate" => return .encapsulate (← EncapsulateStep.ofValue? fields)
  | _ => none

def ofValue? : Value → Option Step
  | .object fields =>
    match Json.valuesOf "action" fields with
    | [action] => ofAction? action (.object fields)
    | _ => none
  | .array (action :: fields) => ofAction? action (.array fields)
  | _ => none

end Step

namespace Plan

/-- How deep arrays and objects may be nested in a document. -/
def maxDepth : Nat := 127

/-- The plan that a value describes. The steps have to be plain values, and not too deep inside the
plan and its list of steps. -/
def ofValue? (v : Value) : Option Plan := do
  match ← v.fields? ["steps"] with
  | [some steps] =>
    let items ← steps.items?
    if items.all fun step => step.isPlain && step.depth + 2 ≤ maxDepth then
      return ⟨← items.mapM Step.ofValue?⟩
    else none
  | _ => none

def stepFault? (number : Nat) : Step → Option PlanFault
  | .reorder step =>
    if step.target.isEmpty then some (.emptyTarget number)
    else step.kind?.bind fun kind =>
      if (DeclarationKind.ofName? kind).isNone then some (.unknownKind number kind) else none
  | .encapsulate step =>
    if step.module.isEmpty then some (.emptyModule number)
    else if step.fields.any (·.field.isEmpty) then some (.emptyField number)
    else none

/-- The plan of a document (`parse_plan_str`). -/
def parse (document : Text) : Except Error Plan :=
  match Json.read? document >>= ofValue? with
  | none => .error (.invalidPlan .malformed)
  | some plan =>
    if plan.steps.isEmpty then .error (.invalidPlan .noSteps)
    else
      match plan.steps.zipIdx.findSome? fun (step, i) => stepFault? (i + 1) step with
      | some fault => .error (.invalidPlan fault)
      | none => .ok plan

end Plan

end VbaRefactor
