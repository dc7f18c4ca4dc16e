import VbaRefactor.Reference
import VbaRefactor.Syntax.Mention
import VbaRefactor.Syntax.Outline

/-!
# Binding names to declarations

A name without a qualifier is looked up among the locals of its member, then in its module, then
among what the standard modules show to everyone. A qualifier is followed through the declared types
to a module, whose own declarations are then searched. Every statement of a body is bound in turn;
the open `With` blocks of the member are carried along.
-/

namespace VbaRefactor

/-- All declarations of a project, and the kinds of its modules. -/
structure Scope where
  declarations : List Declaration
  kinds : ModuleMap ModuleKind

namespace Scope

/-- The declarations of a name directly inside another declaration (`in_scope`). -/
def inside (scope : Scope) (parent : DeclarationId) (name : Text) : List Declaration :=
  scope.declarations.filter fun d => d.parent? = some parent && decide (d.name.SameName name)

/-- The declaration of a module; of several, the last. -/
def moduleScope? (scope : Scope) (m : ModuleName) : Option DeclarationId :=
  ((scope.declarations.filter fun d => d.kind = .module && decide (d.module.Same m)).getLast?).map
    Declaration.id

/-- The declarations of a name at module level (`module_level`). -/
def declaredIn (scope : Scope) (m : ModuleName) (name : Text) : List Declaration :=
  match scope.moduleScope? m with
  | some parent => scope.inside parent name
  | none => []

/-- The module that a type name means; of several, the last (`module_named`). -/
def moduleNamed? (scope : Scope) (type : Text) : Option ModuleName :=
  ((scope.declarations.filter fun d =>
    d.kind = .module && decide (d.name.SameName (unqualifiedType type))).getLast?).map
    Declaration.module

/-- The declared type of a local or parameter of a member. The outer option says whether there is
such a local at all (`local_type`). -/
def typeOfLocal? (scope : Scope) (member : DeclarationId) (name : Text) : Option (Option Text) :=
  match scope.inside member name with
  | d :: _ => some d.type?
  | [] =>
    match scope.declarations[member]? with
    | some owner =>
      (owner.parameters.find? fun p => decide (p.name.SameName name)).map Parameter.type?
    | none => none

/-- A declaration of a standard module is seen from other modules (`is_globally_visible`). -/
def isExported (d : Declaration) : Bool :=
  if d.kind.isMember then d.access ≠ .private
  else
    match d.kind with
    | .variable | .constant => d.access.showsOutside
    | _ => false

/-- What the standard modules show under a name, if all of it comes from one module (`global`). -/
def exported (scope : Scope) (name : Text) : List Declaration :=
  let found := scope.kinds.flatMap fun (m, kind) =>
    if kind = .standard then (scope.declaredIn m name).filter isExported else []
  match found with
  | [] => []
  | d :: rest => if rest.all fun e => decide (e.module.Same d.module) then found else []

/-- The declarations that a name without qualifier can mean inside a member (`unqualified`). -/
def visible (scope : Scope) (m : ModuleName) (member : DeclarationId) (name : Text) :
    List Declaration :=
  if (scope.typeOfLocal? member name).isSome then []
  else
    match scope.declaredIn m name with
    | [] => scope.exported name
    | found => found

/-- The module that is the type of a declaration. -/
def objectType? (scope : Scope) (d : Declaration) : Option ModuleName :=
  d.type?.bind scope.moduleNamed?

end Scope

/-- The accessor of a property that a use takes. -/
def wantedAccessor : Use → DeclarationKind
  | .assignment _ true => .propertySet
  | .assignment _ false => .propertyLet
  | _ => .propertyGet

/-- The declaration that a use takes among those of one name: the fitting accessor of a property, or
the only declaration there is (`pick`). -/
def meant? (candidates : List Declaration) (use : Use) : Option Declaration :=
  if candidates.all fun d => d.kind.isProperty then
    ((candidates.find? fun d => d.kind = wantedAccessor use).or
      (candidates.find? fun d => d.kind = .propertyGet)).or candidates.head?
  else
    match candidates with
    | [d] => some d
    | _ => none

structure Place where
  scope : Scope
  source : Source
  member : DeclarationId
  tokens : Statement

/-- The modules that the open `With` blocks refer to, the innermost first. -/
abbrev WithStack := List (Option ModuleName)

namespace Place

/-- The module of the object that the first name of a chain means. -/
def firstType? (p : Place) (name : Text) : Option ModuleName :=
  if name.SameName "me" then some p.source.id
  else
    match p.scope.typeOfLocal? p.member name with
    | some type? => type?.bind p.scope.moduleNamed?
    | none =>
      ((p.scope.visible p.source.id p.member name).findSome? p.scope.objectType?).or
        (p.scope.moduleNamed? name)

/-- The module of the object that a chain leads to from an object of module `m`. -/
def chainType? (p : Place) (m : ModuleName) : List Nat → Option ModuleName
  | [] => some m
  | i :: rest =>
    match (p.scope.declaredIn m (p.tokens.nameAt i)).findSome? p.scope.objectType? with
    | some next => p.chainType? next rest
    | none => none

/-- The module of the object that a qualifier means (`qualifier_type`). -/
def qualifiedObject? (p : Place) (withs : WithStack) (q : Qualifier) : Option ModuleName :=
  if q.leadingDot then
    match withs with
    | some m :: _ => p.chainType? m q.names
    | _ => none
  else
    match q.names with
    | [] => none
    | first :: rest => (p.firstType? (p.tokens.nameAt first)).bind fun m => p.chainType? m rest

/-- The declarations that a mention can mean (`lookup`). -/
def candidates (p : Place) (withs : WithStack) (m : Mention) : List Declaration :=
  let name := p.tokens.nameAt m.name
  if m.qualifier.isNone then
    match m.use with
    | .raiseEvent _ => (p.scope.declaredIn p.source.id name).filter (·.kind = .event)
    | _ => p.scope.visible p.source.id p.member name
  else
    match p.qualifiedObject? withs m.qualifier with
    | some module => p.scope.declaredIn module name
    | none => []

/-- The mention sets the result of the function it stands in (`is_own_return_value`). -/
def isReturnValue (p : Place) (m : Mention) : Bool :=
  match m.use, p.scope.declarations[p.member]? with
  | .assignment .., some owner =>
    m.qualifier.isNone && (owner.kind = .function || owner.kind = .propertyGet)
      && decide (owner.name.SameName (p.tokens.nameAt m.name))
  | _, _ => false

/-- Where a mention starts: at its qualifier, with the point in front of it. -/
def qualifiedStart (p : Place) (m : Mention) : Nat :=
  match m.qualifier.names.head?, m.qualifier.leadingDot with
  | some first, true => (p.tokens.spanAt (first - 1)).start
  | some first, false => (p.tokens.spanAt first).start
  | none, true => (p.tokens.spanAt (m.name - 1)).start
  | none, false => (p.tokens.spanAt m.name).start

/-- The reference of a mention to a declaration. -/
def reference (p : Place) (m : Mention) (declaration : DeclarationId) (usage : UsageKind)
    (arguments? : Option ArgumentList) : Reference :=
  let name := p.tokens.spanAt m.name
  { declaration, module := p.source.id, member := p.member
    selection := p.source.text.extent name
    qualified := p.source.text.extent ⟨p.qualifiedStart m, name.stop⟩
    usage, arguments? }

/-- The reference that a mention is, if it can be bound (`emit`). -/
def bind? (p : Place) (withs : WithStack) (m : Mention) : Option Reference :=
  if p.isReturnValue m then
    some (p.reference { m with qualifier := .none } p.member .returnValue none)
  else
    (meant? (p.candidates withs m) m.use).map fun d =>
      match m.use with
      | .call arguments? => p.reference m d.id .call arguments?
      | .assignment arguments? _ => p.reference m d.id .assignment arguments?
      | .raiseEvent arguments? => p.reference m d.id .raiseEvent arguments?
      | .address => p.reference m d.id .bare none
      | .read =>
        if d.kind.isMember then p.reference m d.id .call (some (p.tokens.noArguments m.name))
        else p.reference m d.id .bare none

/-- The references of a list of acts and the `With` blocks that are open after them. -/
def perform (p : Place) (withs : WithStack) : List Act → List Reference × WithStack
  | [] => ([], withs)
  | .mention m :: rest =>
    let (references, withs') := p.perform withs rest
    ((p.bind? withs m).toList ++ references, withs')
  | .enterNew type? :: rest => p.perform (type?.bind p.scope.moduleNamed? :: withs) rest
  | .enterWith chain? :: rest => p.perform (chain?.bind (p.qualifiedObject? withs) :: withs) rest
  | .leaveWith :: rest => p.perform withs.tail rest

end Place

/-- The references of the statements of a module. `With` blocks end with the member they stand in. -/
def Scope.references (scope : Scope) (source : Source) (current? : Option DeclarationId)
    (withs : WithStack) : List MemberStatement → List Reference
  | [] => []
  | body :: rest =>
    let withs := if current? = some body.member then withs else []
    let place : Place := ⟨scope, source, body.member, body.tokens⟩
    let (found, withs) := place.perform withs body.tokens.acts
    found ++ scope.references source (some body.member) withs rest

end VbaRefactor
