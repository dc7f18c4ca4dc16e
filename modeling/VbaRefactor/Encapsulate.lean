import VbaRefactor.Outcome
import VbaRefactor.RecordState

/-!
# Encapsulating fields

A field is put behind a property: accessors are added, the field becomes private storage under
another name or a member of a record, and every use is renamed. All new names are checked against the
names of the module and against each other before anything is changed.
-/

namespace VbaRefactor

structure FieldRequest where
  field : DeclarationId
  /-- Only a getter is wanted. -/
  readOnly : Bool
  /-- The name of the property; otherwise it is the capitalized name of the field. -/
  property? : Option Text
deriving DecidableEq, Repr

inductive Storage where
  | value
  | record
  | object
  | variant
  | array
deriving DecidableEq, Repr

namespace Encapsulate

def valueTypes : List String :=
  ["boolean", "byte", "currency", "date", "decimal", "double", "integer", "long", "longlong",
    "longptr", "single", "string"]

def indentation : Text := "    "

/-- The name of the parameter that carries an assigned value. -/
def valueParameter : Text := "RHS"

structure PropertyPlan where
  field : Declaration
  property : Text
  /-- How the storage is reached: the name of a field, or a member of the record. -/
  backing : Text
  readOnly : Bool
  storage : Storage
  typeName : Text
deriving DecidableEq, Repr

/-- The fields of a list of requests: fields of one module, each once. Those found before are
given (`resolve_fields`). -/
def fieldsOf (p : Project) (found : List Declaration) :
    List FieldRequest → Except Error (List Declaration)
  | [] => .ok found
  | request :: rest =>
    match p.declaration request.field with
    | .error e => .error e
    | .ok d =>
      let scope? := (p.index.declarationOf? d.module).map Declaration.id
      if d.kind ≠ .variable then .error (.invalidTargetKind d.qualifiedName d.kind.label)
      else if scope?.isNone || d.parent? ≠ scope? then
        .error (.invalidTargetKind d.qualifiedName "local variable")
      else
        match found.head?.filter fun first => !decide (first.module.Same d.module) with
        | some first =>
          .error (.invalidTargetKind d.qualifiedName ("field outside " ++ first.module.component))
        | none =>
          if found.any (·.id = d.id) then .error (.nameConflict d.name d.module)
          else fieldsOf p (found ++ [d]) rest

/-- The storage of a field, and the type of its property (`classify`). -/
def storageOf (index : Index) (d : Declaration) : Storage × Text :=
  let typeName := Text.trim ((d.type?.getD "Variant").takeWhile (· != '*'))
  if d.isArray then (.array, "Variant")
  else
    let lowered := String.ofList typeName.fold
    if lowered == "variant" then (.variant, typeName)
    else if valueTypes.contains lowered then (.value, typeName)
    else
      match (index.find (unqualifiedType typeName)).find? fun d =>
          d.kind = .record || d.kind = .enumeration with
      | some d => (if d.kind = .record then .record else .value, typeName)
      | none => (.object, typeName)

/-- The record belongs to the module of the fields, is not itself requested, and a new one does not
take a name that is there. -/
def checkRecord (index : Index) (m : ModuleName) (fields : List Declaration) (s : RecordState) :
    Except Error Unit :=
  let isTaken := fun name =>
    (index.declaredIn m name).any fun d => !fields.any (·.id = d.id)
  if !decide (s.module.Same m) then .error (.invalidRecord (.otherModule s.typeName s.module m))
  else
    match s.existing? with
    | some existing =>
      if fields.any (·.id = existing.field) then .error (.invalidRecord (.requested s.fieldName))
      else .ok ()
    | none =>
      if isTaken s.typeName then .error (.nameConflict s.typeName m)
      else if isTaken s.fieldName then .error (.nameConflict s.fieldName m)
      else .ok ()

/-- A declaration of the module other than the field itself has this name. -/
def isTaken (members : List Declaration) (name : Text) (own : Declaration) : Bool :=
  members.any fun d => d.id ≠ own.id && decide (d.name.SameName name)

/-- The name of the storage behind a property that has the name of its field: the name of the field
with the first number that makes it free. Names chosen so far are given folded. -/
def numberedName (members : List Declaration) (chosen : List Text) (d : Declaration) : Text :=
  let candidates := (List.range (members.length + chosen.length + 1)).map fun i =>
    d.name ++ Text.ofNat (i + 1)
  (candidates.find? fun name => !isTaken members name d && !chosen.contains name.fold).getD
    (d.name ++ ['1'])

/-- The storage of a property in a record. A record that is there may not have such a member. -/
def recordBacking (index : Index) (m : ModuleName) (s : RecordState) (property : Text) :
    Except Error Text :=
  let isMember := fun (existing : ExistingRecord) =>
    (index.find property).any fun d => d.kind = .recordMember && d.parent? = some existing.type
  if s.existing?.any isMember then .error (.nameConflict property m) else .ok (s.access property)

/-- The plans of a list of requests with their fields. Names chosen so far are given folded
(`plan_fields`). -/
def planProperties (index : Index) (m : ModuleName) (state? : Option RecordState)
    (chosen : List Text) :
    List (FieldRequest × Declaration) → Except Error (List PropertyPlan)
  | [] => .ok []
  | (request, d) :: rest => do
    let members := index.moduleMembers m
    let property := request.property?.getD (Text.capitalized d.name)
    if property.isEmpty || isTaken members property d || chosen.contains property.fold then
      throw (.nameConflict property m)
    let chosen := chosen ++ [property.fold]
    let (backing, chosen) ← match state? with
      | some s => (recordBacking index m s property).map (·, chosen)
      | none =>
        let backing := if property.SameName d.name then numberedName members chosen d else d.name
        if chosen.contains backing.fold then .error (.nameConflict backing m)
        else .ok (backing, chosen ++ [backing.fold])
    let (storage, typeName) := storageOf index d
    let more ← planProperties index m state? chosen rest
    return {
      field := d, property, backing, readOnly := request.readOnly || storage = .array, storage
      typeName } :: more

def getAccessor (plan : PropertyPlan) : List Text :=
  let head := Text.concat ["Public Property Get ", plan.property, "() As ", plan.typeName]
  let assign := Text.concat [plan.property, " = ", plan.backing]
  let body : List Text := match plan.storage with
    | .object => [.concat [indentation, "Set ", assign]]
    | .variant => [
        .concat [indentation, "If IsObject(", plan.backing, ") Then"],
        .concat [indentation, indentation, "Set ", assign],
        .concat [indentation, "Else"],
        .concat [indentation, indentation, assign],
        .concat [indentation, "End If"]]
    | .value | .record | .array => [indentation ++ assign]
  head :: body ++ ["End Property".toList]

/-- The accessor that assigns a value. A record cannot be passed by value (`letter`). -/
def letAccessor (plan : PropertyPlan) : List Text :=
  let passing : Text := if plan.storage = .record then "ByRef" else "ByVal"
  [.concat ["Public Property Let ", plan.property, "(", passing, " ", valueParameter, " As ",
      plan.typeName, ")"],
    .concat [indentation, plan.backing, " = ", valueParameter],
    "End Property"]

/-- The accessor that assigns an object (`setter`). -/
def setAccessor (plan : PropertyPlan) : List Text :=
  [.concat ["Public Property Set ", plan.property, "(ByVal ", valueParameter, " As ", plan.typeName,
      ")"],
    .concat [indentation, "Set ", plan.backing, " = ", valueParameter],
    "End Property"]

def accessors (plan : PropertyPlan) : List (List Text) :=
  getAccessor plan ::
    if plan.readOnly then []
    else match plan.storage with
      | .value | .record => [letAccessor plan]
      | .object => [setAccessor plan]
      | .variant => [letAccessor plan, setAccessor plan]
      | .array => []

/-- What a field statement says about a field after its name. -/
def afterName (text : Text) (d : Declaration) (declared : DeclaredField) : Text :=
  text.slice ⟨d.selection.span.stop, declared.span.stop⟩

/-- The member of the record that takes the place of a field. -/
def recordMember (text : Text) (plan : PropertyPlan) (declared : DeclaredField) : Text :=
  let member := plan.property ++ (afterName text plan.field declared).trimEnd
  if plan.field.type?.isNone then member ++ " As Variant".toList else member

def backingField (text : Text) (plan : PropertyPlan) (declared : DeclaredField) : Text :=
  .concat ["Private ", if plan.field.isWithEvents then "WithEvents " else "", plan.backing,
    afterName text plan.field declared]

/-- The new lines of a field statement: the fields that stay with their modifiers, then the private
fields of those that do not, unless they go into a record. What stands before and after the
statement on its lines is kept (`statement_lines`). -/
def remainingLines (text : Text) (s : FieldStatement) (plans : List PropertyPlan) (inRecord : Bool) :
    List Text :=
  let planOf := fun (d : DeclaredField) => plans.find? (·.field.id = d.declaration)
  let kept := (s.fields.filter fun d => (planOf d).isNone).map fun d => text.slice d.span
  let moved := if inRecord then []
    else s.fields.filterMap fun d => (planOf d).map fun plan => backingField text plan d
  let staying : List Text :=
    if kept.isEmpty then []
    else [.concat [text.slice s.keywords, " ", (", " : Text).intercalate kept]]
  let lineStart := text.lineStart s.extent.lineStart
  let lineEnd := text.lineEnd s.extent.lineEnd
  let before := text.slice ⟨lineStart, max s.extent.span.start lineStart⟩
  let after := text.slice ⟨min s.extent.span.stop lineEnd, lineEnd⟩
  match staying ++ moved with
  | [] => if after.trim.isEmpty then [] else [before ++ after.trimStart]
  | first :: rest =>
    let lines := (before ++ first) :: rest
    lines.dropLast ++ lines.getLast?.toList.map (· ++ after)

def statementEdit? (text : Text) (s : FieldStatement) (lines : List Text) : Option Edit :=
  let range : LineRange := ⟨s.extent.lineStart, s.extent.lineEnd⟩
  let old := (List.range' range.first (range.last + 1 - range.first)).map text.lineText
  if lines.isEmpty then some (.delete range)
  else if lines ≠ old then some (.replace range (['\n'].intercalate lines))
  else none

/-- The statements by their starts, each once. -/
def insertStatement (s : FieldStatement) : List FieldStatement → List FieldStatement
  | [] => [s]
  | t :: rest =>
    if s.extent.span.start < t.extent.span.start then s :: t :: rest
    else if s.extent.span.start = t.extent.span.start then s :: rest
    else t :: insertStatement s rest

/-- The statements that declare the planned fields, and the record members that replace them. -/
def findStatements (m : ModuleContent) (inRecord : Bool) (statements : List FieldStatement)
    (members : List Text) : List PropertyPlan → Except Error (List FieldStatement × List Text)
  | [] => .ok (statements, members)
  | plan :: rest =>
    let missing := fun element =>
      Error.missingElement m.source.id plan.field.selection.lineStart element
    match Item.findFields? m.items plan.field.id with
    | none => .error (missing .fieldLine)
    | some s =>
      let statements := insertStatement s statements
      if inRecord then
        match s.fields.find? (·.declaration = plan.field.id) with
        | none => .error (missing .declarator)
        | some d =>
          findStatements m inRecord statements
            (members ++ [recordMember m.source.text plan d]) rest
      else findStatements m inRecord statements members rest

/-- The edit that adds members to a record that is there, indented like its first member
(`queue_existing_members`). -/
def extendRecord (p : Project) (m : ModuleContent) (s : RecordState) (type : DeclarationId)
    (members : List Text) : Except Error Edit :=
  match p.declaration type with
  | .error e => .error e
  | .ok d =>
    match Item.findRecord? m.items type with
    | none =>
      .error (.missingElement m.source.id d.selection.lineStart (.recordBlock s.typeName))
    | some block =>
      let margin := match block.members with
        | first :: _ => (m.source.text.lineText first.extent.lineStart).takeWhile isBlank
        | [] => indentation
      .ok (.insert block.endLine (['\n'].intercalate (members.map (margin ++ ·))))

/-- The edits of the field statements. The lines of a new record follow the first statement. -/
def statementEdits (text : Text) (plans : List PropertyPlan) (inRecord : Bool) (record : List Text) :
    List FieldStatement → List Edit
  | [] => []
  | s :: rest =>
    (statementEdit? text s (remainingLines text s plans inRecord ++ record)).toList
      ++ statementEdits text plans inRecord [] rest

/-- The edit that adds the accessors, before the first procedure or at the end. -/
def accessorsEdit (m : ModuleContent) (plans : List PropertyPlan) : Edit :=
  let blocks := (plans.flatMap accessors).map fun lines => ['\n'].intercalate lines
  let all := ['\n', '\n'].intercalate blocks
  match Item.firstWithBody? m.items with
  | some first => .insert first.extent.lineStart (all ++ ['\n'])
  | none => .insert (m.source.text.lineCount + 1) ('\n' :: all)

/-- The edits of the module that declares the fields, its uses apart (`queue_edits`). -/
def moduleEdits (p : Project) (m : ModuleContent) (plans : List PropertyPlan)
    (state? : Option RecordState) (indent? : Option Nat) : Except Error (List Edit) := do
  let (statements, members) ← findStatements m state?.isSome [] [] plans
  let (extension, record) ← match state? with
    | none => .ok ([], [])
    | some s =>
      match s.existing? with
      | some existing => (extendRecord p m s existing.type members).map ([·], [])
      | none =>
        let s := s.withMembers members
        .ok ([], s.blockLines indent? ++ [s.fieldLine])
  return extension ++ statementEdits m.source.text plans state?.isSome record statements
    ++ [accessorsEdit m plans]

/-- The span of a use that is renamed, and its new text: in the module of the fields the storage,
elsewhere the property. A record member takes the place of the qualifier too. -/
def newName (m : ModuleName) (plan : PropertyPlan) (inRecord : Bool) (r : Reference) :
    Span × Text :=
  if r.module.Same m then
    (if inRecord then r.qualified.span else r.selection.span, plan.backing)
  else (r.selection.span, plan.property)

def planRenames (p : Project) (m : ModuleName) (inRecord : Bool)
    (renames : ModuleMap (List Refill)) :
    List (PropertyPlan × Reference) → Except Error (ModuleMap (List Refill))
  | [] => .ok renames
  | (plan, r) :: rest =>
    let (span, name) := newName m plan inRecord r
    match p.moduleOf r.module with
    | .error e => .error e
    | .ok user =>
      if user.source.text.slice span = name then planRenames p m inRecord renames rest
      else
        let refill : Refill := ⟨span, [span], [.literal name], false⟩
        planRenames p m inRecord (renames.update r.module [] (· ++ [refill])) rest

def fillQueue (p : Project) (m : ModuleContent) (plans : List PropertyPlan)
    (state? : Option RecordState) (indent? : Option Nat) : Except Error EditQueue := do
  let edits ← moduleEdits p m plans state? indent?
  let q ← match p.editQueue.queueAll m.source.id edits with
    | (q, none) => .ok q
    | (_, some e) => .error e
  let uses := plans.flatMap fun plan => (p.index.referencesTo plan.field.id).map (plan, ·)
  let renames ← planRenames p m.source.id state?.isSome [] uses
  p.refill q renames

end Encapsulate

/-- Encapsulates fields of one module, with the storage in a record where one is given
(`encapsulate_fields`). -/
def Project.encapsulate (p : Project) (requests : List FieldRequest) (state? : Option RecordState)
    (indent? : Option Nat) : Except Error Outcome := do
  let fields ← Encapsulate.fieldsOf p [] requests
  match fields with
  | [] => return .unchanged
  | first :: _ =>
    let m ← p.moduleOf first.module
    match state? with
    | some s => Encapsulate.checkRecord p.index first.module fields s
    | none => pure ()
    let plans ← Encapsulate.planProperties p.index first.module state? [] (requests.zip fields)
    let q ← Encapsulate.fillQueue p m plans state? indent?
    return ⟨q.commit.1, []⟩

end VbaRefactor
