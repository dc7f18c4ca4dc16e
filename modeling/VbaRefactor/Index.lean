import VbaRefactor.Error
import VbaRefactor.Reference

/-!
# The index of a project

Looking up declarations and references: by number, by name, by module, and along the relations that
tie members together. A member of an interface is implemented under the name `Interface_Member`, and
an event of a class is handled under the name `field_Event` for each `WithEvents` field of that class.
-/

namespace VbaRefactor

/-- All declarations, in order of their numbers, all references, and the interfaces that each module
says it implements. -/
structure Index where
  declarations : List Declaration
  references : List Reference
  interfaces : ModuleMap (List Text)

structure Accessors where
  get? : Option Declaration
  let? : Option Declaration
  set? : Option Declaration

def Accessors.all (a : Accessors) : List Declaration := a.get?.toList ++ a.let?.toList ++ a.set?.toList

namespace Index

def get? (index : Index) (id : DeclarationId) : Option Declaration := index.declarations[id]?

/-- The declarations with a name (`find`). -/
def find (index : Index) (name : Text) : List Declaration :=
  index.declarations.filter fun d => decide (d.name.SameName name)

def declarationOf? (index : Index) (m : ModuleName) : Option Declaration :=
  index.declarations.find? fun d => d.kind = .module && decide (d.module.Same m)

def moduleNamed? (index : Index) (name : Text) : Option Declaration :=
  (index.find name).find? (·.kind = .module)

/-- The declarations of a name at the level of a module (`find_in_module`). -/
def declaredIn (index : Index) (m : ModuleName) (name : Text) : List Declaration :=
  let parent? := (index.declarationOf? m).map Declaration.id
  (index.find name).filter fun d => decide (d.module.Same m) && d.parent? = parent?

/-- The declarations at the level of a module (`members_of`). -/
def moduleMembers (index : Index) (m : ModuleName) : List Declaration :=
  match index.declarationOf? m with
  | some module => index.declarations.filter (·.parent? = some module.id)
  | none => []

def referencesTo (index : Index) (id : DeclarationId) : List Reference :=
  index.references.filter (·.declaration = id)

/-- The accessors with the name, module and scope of a declaration, repeated ones included. -/
def accessorsOf (index : Index) (target : Declaration) : List Declaration :=
  (index.find target.name).filter fun d =>
    d.kind.isProperty && decide (d.module.Same target.module) && d.parent? = target.parent?

/-- The accessors of the property that a declaration belongs to, the first of each kind
(`accessor_siblings_of`). -/
def siblings (index : Index) (id : DeclarationId) : Accessors :=
  match index.get? id with
  | some target =>
    if target.kind.isProperty then
      let found := index.accessorsOf target
      ⟨found.find? (·.kind = .propertyGet), found.find? (·.kind = .propertyLet),
        found.find? (·.kind = .propertySet)⟩
    else ⟨none, none, none⟩
  | none => ⟨none, none, none⟩

def interfacesOf (index : Index) (m : ModuleName) : List Text := (index.interfaces.get? m).getD []

/-- The modules of the same project that say they implement a module. -/
def implementing (index : Index) (interface : ModuleName) : List ModuleName :=
  (index.interfaces.filter fun (m, names) =>
    decide (m.project.SameName interface.project)
      && names.any fun name => decide ((unqualifiedType name).SameName interface.component)).map
    Prod.fst

def isInterface (index : Index) (m : ModuleName) : Bool := !(index.implementing m).isEmpty

/-- The members that implement a member of an interface (`interface_mirrors_of`). -/
def implementationsOf (index : Index) (id : DeclarationId) : List Declaration :=
  match index.get? id with
  | some member =>
    if member.kind.isMember then
      let name := member.module.component ++ '_' :: member.name
      ((index.implementing member.module).flatMap fun m => index.declaredIn m name).filter
        (·.kind = member.kind)
    else []
  | none => []

/-- The rest of a text after a beginning, if it has that beginning. -/
def afterStart? : Text → Text → Option Text
  | [], t => some t
  | _ :: _, [] => none
  | a :: s, b :: t => if a = b then afterStart? s t else none

/-- The members of interfaces that a member implements (`interface_members_of`). -/
def implementedBy (index : Index) (id : DeclarationId) : List Declaration :=
  match index.get? id with
  | some member =>
    if member.kind.isMember then
      (index.interfacesOf member.module).flatMap fun interface =>
        let bare := unqualifiedType interface
        match afterStart? (bare.fold ++ ['_']) member.name.fold, index.moduleNamed? bare with
        | some name, some module =>
          (index.declaredIn module.module name).filter (·.kind = member.kind)
        | _, _ => []
    else []
  | none => []

/-- The `WithEvents` fields whose type is a module. -/
def eventFieldsOf (index : Index) (m : ModuleName) : List Declaration :=
  index.declarations.filter fun d =>
    d.kind = .variable && d.isWithEvents
      && d.type?.any fun type => decide ((unqualifiedType type).SameName m.component)

/-- The procedures that handle an event (`event_handler_mirrors_of`). -/
def handlersOf (index : Index) (id : DeclarationId) : List Declaration :=
  match index.get? id with
  | some event =>
    if event.kind = .event then
      ((index.eventFieldsOf event.module).flatMap fun field =>
        index.declaredIn field.module (field.name ++ '_' :: event.name)).filter
        (·.kind = .procedure)
    else []
  | none => []

/-- The declarations that a request can mean: of this name, not a module, and in the module and of
the kind that are asked for. -/
def matching (index : Index) (module? : Option Text) (name : Text) (kind? : Option DeclarationKind) :
    List Declaration :=
  (index.find name).filter fun d =>
    d.kind ≠ .module
      && module?.all (fun m => decide (d.module.component.SameName m))
      && kind?.all (d.kind = ·)

/-- The declaration that a request means. Where no kind is asked for and only accessors match, the
getter is meant (`resolve_member`). -/
def lookUp (index : Index) (module? : Option Text) (name : Text)
    (kind? : Option DeclarationKind) : Except Error Declaration :=
  let found := index.matching module? name kind?
  let ambiguous := Error.ambiguousDeclaration name
    (found.map fun d => .concat [d.qualifiedName, " (", d.kind.label, ")"])
  match found with
  | [] => .error (.declarationNotFound (.member module? name))
  | [d] => .ok d
  | _ =>
    if kind?.isNone && found.all (·.kind.isProperty) then
      match found.find? (·.kind = .propertyGet) with
      | some getter => .ok getter
      | none => .error ambiguous
    else .error ambiguous

/-- The declaration that `Name` or `Module.Name` means. -/
def lookUpQualified (index : Index) (qualified : Text) (kind? : Option DeclarationKind) :
    Except Error Declaration :=
  match qualified.splitFirst? '.' with
  | some (module, name) => index.lookUp (some module) name kind?
  | none => index.lookUp none qualified kind?

end Index

end VbaRefactor
