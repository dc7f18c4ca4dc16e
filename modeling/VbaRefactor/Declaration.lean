import VbaRefactor.ModuleName
import VbaRefactor.Span

/-!
# Declarations

The named entities of a project: modules, fields and locals, constants, records and enumerations,
and the members that own a parameter list.
-/

namespace VbaRefactor

inductive ModuleKind where
  | standard
  /-- A class module, which may also serve as an interface. -/
  | classModule
deriving DecidableEq, Repr, Inhabited

inductive DeclarationKind where
  | module
  /-- A field of a module or a local variable. -/
  | variable
  | constant
  | record
  | recordMember
  | enumeration
  | procedure
  | function
  | propertyGet
  | propertyLet
  | propertySet
  | event
  /-- A procedure of a library, introduced by `Declare`. -/
  | libraryFunction
deriving DecidableEq, Repr, Inhabited

namespace DeclarationKind

/-- Every kind, in order. -/
def all : List DeclarationKind :=
  [.module, .variable, .constant, .record, .recordMember, .enumeration, .procedure, .function,
    .propertyGet, .propertyLet, .propertySet, .event, .libraryFunction]

def label : DeclarationKind → Text
  | .module => "module"
  | .variable => "variable"
  | .constant => "constant"
  | .record => "user-defined type"
  | .recordMember => "user-defined type member"
  | .enumeration => "enum"
  | .procedure => "procedure"
  | .function => "function"
  | .propertyGet => "property-get"
  | .propertyLet => "property-let"
  | .propertySet => "property-set"
  | .event => "event"
  | .libraryFunction => "library function"

/-- The kinds that own a parameter list. -/
def isMember : DeclarationKind → Bool
  | .procedure | .function | .propertyGet | .propertyLet | .propertySet | .event
  | .libraryFunction => true
  | _ => false

def isProperty : DeclarationKind → Bool
  | .propertyGet | .propertyLet | .propertySet => true
  | _ => false

/-- The accessors whose last parameter is the assigned value. -/
def takesValue : DeclarationKind → Bool
  | .propertyLet | .propertySet => true
  | _ => false

/-- The kind that a request names, in any case. -/
def ofName? (name : Text) : Option DeclarationKind :=
  match String.ofList name.fold with
  | "sub" | "procedure" => some .procedure
  | "function" => some .function
  | "get" | "property-get" => some .propertyGet
  | "let" | "property-let" => some .propertyLet
  | "set" | "property-set" => some .propertySet
  | "event" => some .event
  | "field" | "variable" => some .variable
  | _ => none

end DeclarationKind

inductive Access where
  /-- No modifier was written, or `Dim`. -/
  | implicit
  | «private»
  | «public»
  | friend
  | «global»
deriving DecidableEq, Repr, Inhabited

namespace Access

/-- The modifier that a word spells, in any case. -/
def ofWord? (word : Text) : Option Access :=
  let word := word.fold
  if word == "private" then some .private
  else if word == "public" then some .public
  else if word == "friend" then some .friend
  else if word == "global" then some .global
  else if word == "dim" then some .implicit
  else none

def keyword : Access → Text
  | .implicit => "Dim"
  | .private => "Private"
  | .public => "Public"
  | .friend => "Friend"
  | .global => "Global"

/-- The modifier shows a declaration to other modules. -/
def showsOutside : Access → Bool
  | .public | .global | .friend => true
  | _ => false

end Access

structure Parameter where
  name : Text
  /-- The text after `As`. -/
  type? : Option Text
  /-- The place among the comma-separated pieces of the list, counted from 0. -/
  position : Nat
  isOptional : Bool
  /-- The parameter takes all remaining arguments. -/
  isParamArray : Bool
  isByVal : Bool
  /-- The text after `=`. -/
  default? : Option Text
  text : Text
  extent : Extent
deriving DecidableEq, Repr, Inhabited

/-- The number of a declaration, counted from 0 over all modules of a project. -/
abbrev DeclarationId := Nat

structure Declaration where
  id : DeclarationId
  name : Text
  kind : DeclarationKind
  module : ModuleName
  /-- The declaration that this one stands in: a module, a member or a record. -/
  parent? : Option DeclarationId
  access : Access
  /-- The text after `As`. -/
  type? : Option Text
  isWithEvents : Bool
  isArray : Bool
  selection : Extent
  extent : Extent
  parameters : List Parameter
deriving DecidableEq, Repr, Inhabited

namespace Declaration

/-- The parameters that can change places: all but the assigned value of a `Let` or `Set` accessor. -/
def reorderable (d : Declaration) : List Parameter :=
  if d.kind.takesValue then d.parameters.dropLast else d.parameters

def qualifiedName (d : Declaration) : Text := d.module.component ++ '.' :: d.name

end Declaration

/-- The part of a type name after its last point. -/
def unqualifiedType (name : Text) : Text := (name.reverse.takeWhile (· != '.')).reverse

end VbaRefactor
