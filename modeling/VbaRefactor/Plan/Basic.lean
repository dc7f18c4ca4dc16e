import VbaRefactor.Encapsulate
import VbaRefactor.Reorder

/-!
# Plans

A plan is a list of refactorings that are carried out one after another, each on the texts that the
ones before it left. Only the texts at the end count: a module that changes and changes back is not
changed.
-/

namespace VbaRefactor

structure ReorderStep where
  /-- A member, possibly after its module and a point. -/
  target : Text
  /-- The name of the kind that the member has to be of. -/
  kind? : Option Text
  order : List Text
  /-- The interface to choose if the member implements several. -/
  interface? : Option Text
deriving DecidableEq, Repr

structure FieldStep where
  field : Text
  property? : Option Text
  readOnly : Bool
deriving DecidableEq, Repr

/-- The record of a step that encapsulates: the one that an existing field holds, or a new one. -/
structure RecordStep where
  existing? : Option Text
deriving DecidableEq, Repr

structure EncapsulateStep where
  module : Text
  fields : List FieldStep
  record? : Option RecordStep
  indent : Bool
deriving DecidableEq, Repr

inductive Step where
  | reorder (step : ReorderStep)
  | encapsulate (step : EncapsulateStep)
deriving DecidableEq, Repr

structure Plan where
  steps : List Step
deriving DecidableEq, Repr

structure StepResult where
  /-- Counted from 1. -/
  number : Nat
  action : Text
  modules : List ModuleName
  skipped : List SkippedUse
deriving DecidableEq, Repr

structure PlanResult where
  reports : List StepResult
  changes : Changes
deriving DecidableEq, Repr

/-- The width of one step of indentation in a new record. -/
def recordIndent : Nat := 4

namespace ReorderStep

/-- The answers of a step: consent is given by `confirm`, and the step names the interface. -/
def answers (step : ReorderStep) (confirm : Text → Bool) : Answers where
  confirm := confirm
  choose := fun _ members => step.interface?.bind fun wanted =>
    (members.find? fun d => decide (d.module.component.SameName wanted)).map Declaration.id

def kind (step : ReorderStep) : Except Error (Option DeclarationKind) :=
  match step.kind? with
  | none => .ok none
  | some name =>
    match DeclarationKind.ofName? name with
    | some kind => .ok (some kind)
    | none => .error (.unknownKind name)

def run (step : ReorderStep) (p : Project) (confirm : Text → Bool) : Except Error Outcome := do
  let kind? ← step.kind
  let target ← p.index.lookUpQualified step.target kind?
  let request ← ReorderRequest.ofNames target step.order
  (p.reorder request (step.answers confirm)).result

end ReorderStep

namespace EncapsulateStep

def requests (p : Project) (component : Text) : List FieldStep → Except Error (List FieldRequest)
  | [] => .ok []
  | step :: rest => do
    let field ← p.index.lookUp (some component) step.field (some .variable)
    let more ← requests p component rest
    return ⟨field.id, step.readOnly, step.property?⟩ :: more

def record (p : Project) (m : ModuleName) : Option RecordStep → Except Error (Option RecordState)
  | none => .ok none
  | some step =>
    match step.existing? with
    | none => .ok (some (.new m))
    | some name => do
      let field ← p.index.lookUp (some m.component) name (some .variable)
      let state ← RecordState.ofField p.index field.id
      return some state

def run (step : EncapsulateStep) (p : Project) : Except Error Outcome := do
  match p.index.moduleNamed? step.module with
  | none => throw (.moduleNotFound step.module)
  | some d =>
    let requests ← requests p d.module.component step.fields
    let state? ← record p d.module step.record?
    p.encapsulate requests state? (if step.indent then some recordIndent else none)

end EncapsulateStep

namespace Step

def action : Step → Text
  | .reorder _ => "reorder"
  | .encapsulate _ => "encapsulate"

def run (p : Project) (confirm : Text → Bool) : Step → Except Error Outcome
  | .reorder step => step.run p confirm
  | .encapsulate step => step.run p

end Step

namespace Plan

def update (changes : Changes) (sources : List Source) : List Source :=
  sources.map fun source =>
    match changes.get? source.id with
    | some text => { source with text }
    | none => source

/-- Carries out steps that are numbered from `number`. -/
def runSteps (confirm : Text → Bool) (number : Nat) (sources : List Source) :
    List Step → Except Error (List StepResult × List Source)
  | [] => .ok ([], sources)
  | step :: rest =>
    match Project.read sources >>= (step.run · confirm) with
    | .error e => .error (.stepFailed number e)
    | .ok outcome =>
      let report : StepResult :=
        ⟨number, step.action, outcome.changes.map Prod.fst, outcome.skipped⟩
      match runSteps confirm (number + 1) (update outcome.changes sources) rest with
      | .error e => .error e
      | .ok (reports, sources) => .ok (report :: reports, sources)

/-- The modules whose texts differ from those in the beginning. -/
def differences (before after : List Source) : Changes :=
  let old : ModuleMap Text := .ofList (before.map fun s => (s.id, s.text))
  .ofLatest ((after.filter fun s => old.get? s.id ≠ some s.text).map fun s => (s.id, s.text))

/-- Carries out a plan (`execute_plan`). -/
def run (plan : Plan) (sources : List Source) (confirm : Text → Bool) : Except Error PlanResult :=
  match runSteps confirm 1 sources plan.steps with
  | .error e => .error e
  | .ok (reports, final) => .ok ⟨reports, differences sources final⟩

end Plan

end VbaRefactor
