import VbaRefactor.Index
import VbaRefactor.Text.Blank
import VbaRefactor.Text.Uppercase

/-!
# Records that hold the state of an object

The storage of several properties can be put together in one private record: either a record that the
module has, through a private field of that type, or a new one.
-/

namespace VbaRefactor

structure ExistingRecord where
  field : DeclarationId
  type : DeclarationId
deriving DecidableEq, Repr

/-- A record with the field that holds it, and the members to be added. -/
structure RecordState where
  module : ModuleName
  typeName : Text
  fieldName : Text
  existing? : Option ExistingRecord
  members : List Text
deriving DecidableEq, Repr

/-- The lines of a block, with those between the first and the last moved right by `width` blanks. -/
def indentBlock (width : Nat) (lines : List Text) : List Text :=
  lines.zipIdx.map fun (line, i) =>
    let content := line.trimStart
    if i = 0 || i = lines.length - 1 || content.isEmpty then content
    else List.replicate width ' ' ++ content

namespace RecordState

/-- A new record, named after its module. -/
def new (m : ModuleName) : RecordState where
  module := m
  typeName := 'T' :: m.component.capitalized
  fieldName := "this"
  existing? := none
  members := []

/-- The record that is the type of a private field (`from_field`). -/
def ofField (index : Index) (field : DeclarationId) : Except Error RecordState :=
  match index.get? field with
  | none => .error (.declarationNotFound (.declaration field))
  | some d =>
    if d.kind ≠ .variable then .error (.invalidRecord (.notAField d.name d.kind))
    else if d.access ≠ .private then .error (.invalidRecord (.notPrivate d.name))
    else
      let type := d.type?.getD "Variant"
      match (index.declaredIn d.module (unqualifiedType type)).find? (·.kind = .record) with
      | none => .error (.invalidRecord (.notALocalRecord type d.module.component))
      | some record => .ok {
          module := d.module
          typeName := record.name
          fieldName := d.name
          existing? := some ⟨field, record.id⟩
          members := [] }

/-- The record with more members (`add_members`). -/
def withMembers (s : RecordState) (members : List Text) : RecordState :=
  { s with members := s.members ++ members }

def fieldLine (s : RecordState) : Text :=
  .concat ["Private ", s.fieldName, " As ", s.typeName]

/-- The block that declares the record, indented where a width is given (`type_block`). -/
def blockLines (s : RecordState) (indent? : Option Nat) : List Text :=
  let lines := Text.concat ["Private Type ", s.typeName] :: s.members ++ ["End Type".toList]
  match indent? with
  | some width => indentBlock width lines
  | none => lines

/-- How a member of the record is reached (`member_access`). -/
def access (s : RecordState) (member : Text) : Text := s.fieldName ++ '.' :: member

end RecordState

end VbaRefactor
