import VbaRefactor.Affected
import VbaRefactor.Outcome

/-!
# Reordering parameters

The parameters of a member change places, in its signature and in all signatures that change with it,
and the arguments of every call follow. Calls that give all arguments by name stay as they are; calls
that mix the two ways, or lack a required argument, are reported and left alone. Where the member
implements a member of an interface, that one has to be changed instead, which needs consent.
-/

namespace VbaRefactor

structure ReorderRequest where
  target : DeclarationId
  permutation : Permutation
deriving DecidableEq, Repr

namespace ReorderRequest

/-- The request that lists the old places in their new order. -/
def ofOrder (target : Declaration) (order : List Nat) : Except Error ReorderRequest :=
  match Permutation.ofOrder order target.reorderable.length with
  | .ok permutation => .ok ⟨target.id, permutation⟩
  | .error rule => .error (.invalidOrder rule)

/-- The places of parameters given by name. -/
def placesOf (target : Declaration) : List Text → Except Error (List Nat)
  | [] => .ok []
  | name :: rest =>
    match target.reorderable.findIdx? fun p => decide (p.name.SameName name) with
    | none => .error (.declarationNotFound (.parameter name target.qualifiedName))
    | some place =>
      match placesOf target rest with
      | .ok places => .ok (place :: places)
      | .error e => .error e

/-- The request that lists the names of the parameters in their new order (`by_names`). -/
def ofNames (target : Declaration) (names : List Text) : Except Error ReorderRequest :=
  match placesOf target names with
  | .ok places => ofOrder target places
  | .error e => .error e

end ReorderRequest

inductive Question where
  /-- Shall the interface member be changed instead? -/
  | confirm (message : Text) (member : Declaration)
  /-- Which of these interface members shall be changed? -/
  | choose (message : Text) (members : List Declaration)
deriving DecidableEq, Repr

structure Answers where
  confirm : Text → Bool
  choose : Text → List Declaration → Option DeclarationId

namespace Question

def answer (answers : Answers) : Question → Except Error Declaration
  | .confirm message member => if answers.confirm message then .ok member else .error .aborted
  | .choose message members =>
    match answers.choose message members with
    | none => .error .aborted
    | some chosen =>
      match members.find? (·.id = chosen) with
      | some member => .ok member
      | none => .error .aborted

end Question

namespace Reorder

/-- The question that a target raises which implements members of interfaces
(`retarget_interface`). -/
def question? (index : Index) (target : Declaration) : Option Question :=
  match index.implementedBy target.id with
  | [] => none
  | [member] => some (.confirm (.concat [target.qualifiedName, " implements ", member.qualifiedName,
      ". Modify the interface member and all of its implementations?"]) member)
  | members => some (.choose (.concat [target.qualifiedName,
      " implements several interface members. Choose the member to modify."]) members)

def isTarget : DeclarationKind → Bool
  | .event | .function | .procedure | .propertyGet | .propertyLet | .propertySet => true
  | _ => false

/-- The refill that reorders a signature. The assigned value of an accessor stays last
(`signature_rewrite`). -/
def signatureRefill (p : Project) (d : Declaration) (order : Permutation) : Except Error Refill :=
  let missing := fun element => Error.missingElement d.module d.selection.lineStart element
  match p.memberItem? d.id with
  | none => .error (missing .memberSignature)
  | some node =>
    match node.list? with
    | none => .error (missing .parameterList)
    | some list =>
      if list.spans.length ≠ d.parameters.length then .error (missing .parameter)
      else if d.reorderable.length ≠ order.size then
        .error (.parameterCount d.qualifiedName order.size d.reorderable.length)
      else
        .ok {
          region := list.extent.span
          slots := list.spans
          fills := (order.apply list.spans ++ list.spans.drop order.size).map Fill.source
          collapse := list.extent.lineStart ≠ list.extent.lineEnd }

/-- The filling of a slot by the argument that stood at a place. -/
def fillOf (arguments : List Argument) (place : Nat) : Fill :=
  match arguments[place]? with
  | some a => if a.kind = .missing then .empty else .source a.span
  | none => .empty

/-- The fillings without empty ones at the end. -/
def dropTrailingEmpty (fills : List Fill) : List Fill :=
  (fills.reverse.dropWhile (· = .empty)).reverse

/-- The number of parameters that are not a `ParamArray` at the end. -/
def fixedCount (parameters : List Parameter) : Nat :=
  match parameters.getLast? with
  | some last => if last.isParamArray then parameters.length - 1 else parameters.length
  | none => 0

/-- The new arguments of a call: those of the fixed parameters in their new order, then the rest. -/
def callFills (parameters : List Parameter) (order : Permutation) (arguments : List Argument) :
    List Fill :=
  let fixed := fixedCount parameters
  dropTrailingEmpty
    ((List.range fixed).map (fun new => fillOf arguments (order.oldPlace new))
      ++ (List.range' fixed (arguments.length - fixed)).map (fillOf arguments))

/-- The refill that reorders the arguments of a call, if it has to change, or what stands in its
way (`call_site_rewrite`). -/
def callRefill (d : Declaration) (r : Reference) (order : Permutation) :
    Except Element (Option Refill) :=
  if r.usage = .returnValue then .ok none
  else
    match r.arguments? with
    | none => .error .argumentList
    | some list =>
      if list.arguments.isEmpty || list.everyNamed then .ok none
      else if list.anyNamed then .error .positionalArguments
      else
        let fills := callFills d.reorderable order list.arguments
        let required := (d.reorderable.filter fun p => !p.isOptional && !p.isParamArray).length
        if list.arguments.length < required && fills.head? = some .empty then
          .error .requiredArgument
        else
          .ok (some {
            region := list.extent
            slots := list.arguments.map Argument.span
            fills
            collapse := false })

/-- The refills of each module, and the uses that are left alone. -/
structure Plan where
  refills : ModuleMap (List Refill)
  skipped : List SkippedUse

def Plan.add (plan : Plan) (m : ModuleName) (refill : Refill) : Plan :=
  { plan with refills := plan.refills.update m [] (· ++ [refill]) }

def planSites (p : Project) (order : Permutation) (plan : Plan) :
    List ChangedPlace → Except Error Plan
  | [] => .ok plan
  | site :: rest =>
    match site.reference? with
    | none =>
      match signatureRefill p site.declaration order with
      | .error e => .error e
      | .ok refill => planSites p order (plan.add site.declaration.module refill) rest
    | some r =>
      match callRefill site.declaration r order with
      | .ok none => planSites p order plan rest
      | .ok (some refill) => planSites p order (plan.add r.module refill) rest
      | .error element =>
        let line := r.selection.lineStart
        let reason := (Error.missingElement r.module line element).message
        planSites p order { plan with skipped := plan.skipped ++ [⟨r.module, line, reason⟩] } rest

/-- Reorders the parameters of a declaration and of all that changes with it. -/
def perform (p : Project) (target : Declaration) (order : Permutation) : Except Error Outcome := do
  let sites ← p.index.changedPlaces target
  let plan ← planSites p order ⟨[], []⟩ sites
  let q ← p.refill p.editQueue plan.refills
  return ⟨q.commit.1, plan.skipped⟩

/-- The target of a request if it can be carried out, or nothing if the order is the old one
(`check_target_kind`). -/
def check (p : Project) (request : ReorderRequest) : Except Error (Option Declaration) := do
  let target ← p.declaration request.target
  if !isTarget target.kind then
    throw (.invalidTargetKind target.qualifiedName target.kind.label)
  let order := request.permutation
  let parameters := target.reorderable
  if order.size ≠ parameters.length then
    throw (.invalidOrder (.notAPermutation parameters.length order.oldPlaces))
  if order.isIdentity then return none
  match Parameter.checkOrder parameters order with
  | .error rule => throw (.invalidOrder rule)
  | .ok () => return some target

end Reorder

/-- A result together with the question that was asked on the way. -/
structure Reply where
  asked? : Option Question
  result : Except Error Outcome

/-- Carries out a request to reorder parameters. The old order changes nothing and asks nothing
(`reorder_parameters`). -/
def Project.reorder (p : Project) (request : ReorderRequest) (answers : Answers) : Reply :=
  match Reorder.check p request with
  | .error e => ⟨none, .error e⟩
  | .ok none => ⟨none, .ok .unchanged⟩
  | .ok (some target) =>
    match Reorder.question? p.index target with
    | none => ⟨none, Reorder.perform p target request.permutation⟩
    | some question =>
      ⟨some question, do
        let member ← question.answer answers
        Reorder.perform p member request.permutation⟩

end VbaRefactor
