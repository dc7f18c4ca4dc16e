import VbaRefactor.Declaration

/-!
# Items of a module

What stands at module level, as far as refactorings touch it: `Implements` statements, field
statements, record blocks and members.
-/

namespace VbaRefactor

structure DeclaredField where
  declaration : DeclarationId
  /-- From the name through its `As` clause. -/
  span : Span
  /-- The array bounds with their parentheses. -/
  bounds? : Option Text
deriving DecidableEq, Repr, Inhabited

/-- A statement that declares fields, such as `Public a As Long, b As String`. -/
structure FieldStatement where
  extent : Extent
  keywords : Span
  fields : List DeclaredField
deriving DecidableEq, Repr, Inhabited

structure RecordLine where
  declaration : DeclarationId
  extent : Extent
deriving DecidableEq, Repr, Inhabited

/-- A record from `Type` to `End Type`. -/
structure RecordBlock where
  declaration : DeclarationId
  extent : Extent
  members : List RecordLine
  /-- The line on which `End Type` starts. -/
  endLine : Nat
deriving DecidableEq, Repr, Inhabited

structure ParameterList where
  /-- From one parenthesis to the other, both included. -/
  extent : Extent
  spans : List Span
deriving DecidableEq, Repr, Inhabited

/-- A procedure, function, property accessor, event or library function. -/
structure MemberItem where
  declaration : DeclarationId
  kind : DeclarationKind
  extent : Extent
  signature : Extent
  list? : Option ParameterList
  /-- What stands between the signature and the `End` statement. -/
  body? : Option Span
deriving DecidableEq, Repr, Inhabited

inductive Item where
  | implements (interface : Text) (extent : Extent)
  | fields (statement : FieldStatement)
  | record (block : RecordBlock)
  | member (node : MemberItem)
deriving DecidableEq, Repr

namespace Item

def extent : Item → Extent
  | .implements _ extent => extent
  | .fields statement => statement.extent
  | .record block => block.extent
  | .member node => node.extent

def member? : Item → Option MemberItem
  | .member node => some node
  | _ => none

def fields? : Item → Option FieldStatement
  | .fields statement => some statement
  | _ => none

def record? : Item → Option RecordBlock
  | .record block => some block
  | _ => none

def interface? : Item → Option Text
  | .implements interface _ => some interface
  | _ => none

def hasBody : Item → Bool
  | .member node => node.body?.isSome
  | _ => false

def findMember? (items : List Item) (id : DeclarationId) : Option MemberItem :=
  (items.filterMap member?).find? (·.declaration == id)

def findFields? (items : List Item) (id : DeclarationId) : Option FieldStatement :=
  (items.filterMap fields?).find? fun s => s.fields.any (·.declaration == id)

def findRecord? (items : List Item) (id : DeclarationId) : Option RecordBlock :=
  (items.filterMap record?).find? (·.declaration == id)

def firstWithBody? (items : List Item) : Option MemberItem :=
  (items.filterMap member?).find? (·.body?.isSome)

/-- The last line of all that stands before and between the members with a body. -/
def declarationsEnd? (items : List Item) : Option Nat :=
  ((items.filter (!·.hasBody)).map (·.extent.lineEnd)).max?

end Item

end VbaRefactor
