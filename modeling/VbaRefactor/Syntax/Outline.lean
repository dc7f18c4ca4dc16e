import VbaRefactor.Error
import VbaRefactor.Source
import VbaRefactor.Syntax.Item
import VbaRefactor.Syntax.Statement

/-!
# The outline of a module

The outline is what a module declares: its declarations, the items at module level, the interfaces
it names, and the statements inside its members, which are kept for later. It is read statement by
statement; `Construct` says in which construct the next statement stands.
-/

namespace VbaRefactor

structure MemberStatement where
  member : DeclarationId
  tokens : Statement
deriving DecidableEq, Repr

structure Outline where
  source : Source
  /-- The number of the first declaration, which is the module itself. -/
  base : DeclarationId
  declarations : List Declaration
  items : List Item
  interfaces : List Text
  bodies : List MemberStatement
deriving DecidableEq, Repr

/-- A name with what is written after it: array bounds and a type. -/
structure NamedType where
  name : Token
  bounds? : Option Span
  type? : Option Text
deriving DecidableEq, Repr

namespace Statement

/-- The type after `As`, up to a default value; `New` in front of it is left out. -/
def asType? (text : Text) (s : Statement) : Option Text :=
  if s.isWord 0 "as" then
    let type := if s.isWord 1 "new" then s.drop 2 else s.drop 1
    textIn? (type.takeWhile (!·.isPunct "=")) text
  else none

/-- Reads `name[(bounds)] [As [New] type]`, with `WithEvents` in front or not. -/
def namedType? (text : Text) (s : Statement) : Option NamedType :=
  match if s.isWord 0 "withevents" then s.drop 1 else s with
  | [] => none
  | name :: rest =>
    if name.kind = .identifier then
      if isPunct rest 0 "(" then
        match matching? rest 0 with
        | some close =>
          some ⟨name, cover? (rest.take (close + 1)), asType? text (rest.drop (close + 1))⟩
        | none => none
      else some ⟨name, none, asType? text rest⟩
    else none

/-- The words that can stand in front of a parameter. -/
def isModifier (t : Token) : Bool :=
  t.isWord "optional" || t.isWord "byval" || t.isWord "byref" || t.isWord "paramarray"

/-- Reads a parameter: modifiers, name, empty parentheses, type and default value. -/
def parameter? (text : Text) (position : Nat) (s : Statement) : Option Parameter :=
  let modifiers := s.takeWhile isModifier
  match cover? s, s.dropWhile isModifier with
  | some span, name :: rest =>
    let rest := if isPunct rest 0 "(" && isPunct rest 1 ")" then rest.drop 2 else rest
    some {
      name := name.name
      type? :=
        if isWord rest 0 "as" then textIn? ((rest.drop 1).takeWhile (!·.isPunct "=")) text else none
      position
      isOptional := modifiers.any (·.isWord "optional")
      isParamArray := modifiers.any (·.isWord "paramarray")
      isByVal := modifiers.any (·.isWord "byval")
      default? := textIn? ((rest.dropWhile (!·.isPunct "=")).drop 1) text
      text := text.slice span
      extent := text.extent span }
  | _, _ => none

def parameters (text : Text) (inner : Statement) : List Parameter :=
  if inner.isEmpty then []
  else (splitAtCommas 0 inner).zipIdx.filterMap fun (piece, position) =>
    parameter? text position piece

/-- The signature of a member, read from its first statement. -/
structure Signature where
  name : Token
  parameters : List Parameter
  list? : Option ParameterList
  type? : Option Text

/-- The text after `As` in a signature. -/
def resultType? (text : Text) (s : Statement) : Option Text :=
  if s.isWord 0 "as" then textIn? (s.drop 1) text else none

/-- Reads the signature whose name stands at index `nameAt`. -/
def signature (text : Text) (s : Statement) (nameAt : Nat) : Except Expected Signature :=
  match s.drop nameAt with
  | [] => .error .memberName
  | name :: rest =>
    if name.kind = .identifier then
      match rest.dropWhile (!·.isPunct "(") with
      | [] => .ok ⟨name, [], none, resultType? text rest⟩
      | opened@(first :: _) =>
        match matching? opened 0 with
        | none => .error .closingParenthesis
        | some close =>
          let found := parameters text ((opened.take close).drop 1)
          let list := opened.take (close + 1)
          .ok {
            name
            parameters := found
            list? := some {
              extent := text.extent ((cover? list).getD first.span)
              spans := found.map (·.extent.span) }
            type? := resultType? text (opened.drop (close + 1)) }
    else .error .memberName

end Statement

inductive ModuleStatement where
  | ignored
  /-- The start of a file header, which a lone `End` closes. -/
  | fileHeader
  | implements
  /-- A member with a body, which `End` and the closing word close. -/
  | procedure (kind : DeclarationKind) (access : Access) (nameAt : Nat) (closing : Text)
  | bodyless (kind : DeclarationKind) (access : Access) (nameAt : Nat)
  /-- `Property` without one of its three accessors. -/
  | unknownAccessor
  | record (access : Access) (nameAt : Nat)
  | enumeration (access : Access) (nameAt : Nat)
  | constants (access : Access) (start : Nat)
  | fields (access : Access) (start : Nat)
deriving DecidableEq, Repr

namespace ModuleStatement

/-- What follows the modifiers `access` and `Static`, which end before index `i`. -/
def afterModifiers (access? : Option Access) (s : Statement) (i : Nat) : ModuleStatement :=
  let access := access?.getD .implicit
  if s.isWord i "sub" then .procedure .procedure access (i + 1) "sub"
  else if s.isWord i "function" then .procedure .function access (i + 1) "function"
  else if s.isWord i "property" then
    if s.isWord (i + 1) "get" then .procedure .propertyGet access (i + 2) "property"
    else if s.isWord (i + 1) "let" then .procedure .propertyLet access (i + 2) "property"
    else if s.isWord (i + 1) "set" then .procedure .propertySet access (i + 2) "property"
    else .unknownAccessor
  else if s.isWord i "event" then .bodyless .event access (i + 1)
  else if s.isWord i "declare" then
    .bodyless .libraryFunction access (if s.isWord (i + 1) "ptrsafe" then i + 3 else i + 2)
  else if s.isWord i "type" then .record access (i + 1)
  else if s.isWord i "enum" then .enumeration access (i + 1)
  else if s.isWord i "const" then .constants access (i + 1)
  else if access?.isSome || s.isWord i "withevents" then .fields access i
  else .ignored

def ofStatement (s : Statement) : ModuleStatement :=
  if s.isWord 0 "attribute" || s.isWord 0 "option" || s.isWord 0 "version" then .ignored
  else if s.isWord 0 "begin" then .fileHeader
  else if s.isWord 0 "implements" then .implements
  else
    let access? := (s.word? 0).bind Access.ofWord?
    let i := if access?.isSome then 1 else 0
    afterModifiers access? s (if s.isWord i "static" then i + 1 else i)

end ModuleStatement

namespace Outline

/-- A member whose `End` statement has not come yet. -/
structure UnclosedMember where
  declaration : DeclarationId
  kind : DeclarationKind
  signature : Extent
  list? : Option ParameterList
  closing : Text
deriving DecidableEq, Repr

/-- A record whose `End` statement has not come yet. -/
structure UnclosedRecord where
  declaration : DeclarationId
  start : Nat
  members : List RecordLine
deriving DecidableEq, Repr

inductive Construct where
  | code
  | fileHeader
  | member (opened : UnclosedMember)
  | record (opened : UnclosedRecord)
  | enumeration (name : Text)
deriving DecidableEq, Repr

/-- The word that has to close a block before the module ends. -/
def Construct.closing? : Construct → Option Text
  | .code | .fileHeader => none
  | .member opened => some opened.closing
  | .record _ => some "type"
  | .enumeration _ => some "enum"

/-- What a new declaration says besides its number and module. -/
structure Entry where
  name : Token
  kind : DeclarationKind
  parent : DeclarationId
  access : Access
  type? : Option Text := none
  isWithEvents : Bool := false
  isArray : Bool := false
  parameters : List Parameter := []
  extent : Span

def nextId (o : Outline) : DeclarationId := o.base + o.declarations.length

/-- The outline with one more declaration, which gets the number `o.nextId`. -/
def addDeclaration (o : Outline) (e : Entry) : Outline :=
  { o with declarations := o.declarations ++ [{
      id := o.nextId
      name := e.name.name
      kind := e.kind
      module := o.source.id
      parent? := some e.parent
      access := e.access
      type? := e.type?
      isWithEvents := e.isWithEvents
      isArray := e.isArray
      selection := o.source.text.extent e.name.span
      extent := o.source.text.extent e.extent
      parameters := e.parameters }] }

def addItem (o : Outline) (item : Item) : Outline := { o with items := o.items ++ [item] }

/-- The outline of a module of which no statement has been read: the module itself is declared. -/
def start (base : DeclarationId) (source : Source) : Outline :=
  let whole := source.text.extent ⟨0, source.text.byteSize⟩
  { source, base
    declarations := [{
      id := base
      name := source.id.component
      kind := .module
      module := source.id
      parent? := none
      access := .public
      type? := none
      isWithEvents := false
      isArray := false
      selection := whole
      extent := whole
      parameters := [] }]
    items := []
    interfaces := []
    bodies := [] }

/-- Declares every constant of a `Const` statement (`constants`). -/
def addConstants (o : Outline) (scope : DeclarationId) (access : Access) (s : Statement) : Outline :=
  (s.splitAtCommas 0).foldl (fun o piece =>
    match piece.namedType? o.source.text with
    | none => o
    | some found => o.addDeclaration {
        name := found.name, kind := .constant, parent := scope, access, type? := found.type?
        extent := piece.cover?.getD found.name.span }) o

/-- Declares every variable of a `Dim` or `Static` statement in a member. -/
def addLocals (o : Outline) (member : DeclarationId) (s : Statement) : Outline :=
  (s.splitAtCommas 0).foldl (fun o piece =>
    match piece.namedType? o.source.text with
    | none => o
    | some found => o.addDeclaration {
        name := found.name, kind := .variable, parent := member, access := .implicit
        type? := found.type?, isArray := found.bounds?.isSome
        extent := piece.cover?.getD found.name.span }) o

/-- Declares what a statement in a member declares (`local_statement`). -/
def addLocalStatement (o : Outline) (member : DeclarationId) (s : Statement) : Outline :=
  if s.isWord 0 "dim" || s.isWord 0 "static" then o.addLocals member (s.drop 1)
  else if s.isWord 0 "const" then o.addConstants member .implicit (s.drop 1)
  else o

/-- Declares every field of a field statement; gives also where each of them stands. -/
def addDeclaredFields (o : Outline) (access : Access) (withEvents : Bool) :
    List Statement → Outline × List DeclaredField
  | [] => (o, [])
  | piece :: pieces =>
    match piece.namedType? o.source.text, piece.cover? with
    | some found, some span =>
      let declared := o.addDeclaration {
        name := found.name, kind := .variable, parent := o.base, access, type? := found.type?
        isWithEvents := withEvents || piece.isWord 0 "withevents", isArray := found.bounds?.isSome
        extent := span }
      let (o', rest) := addDeclaredFields declared access withEvents pieces
      (o', ⟨o.nextId, span, found.bounds?.map o.source.text.slice⟩ :: rest)
    | _, _ => addDeclaredFields o access withEvents pieces

/-- Reads a field statement whose modifiers end before index `i` (`fields`). -/
def addFields (o : Outline) (access : Access) (s : Statement) (i : Nat) : Outline :=
  let withEvents := s.isWord i "withevents"
  let start := if withEvents then i + 1 else i
  match s.cover? with
  | some span =>
    if start < s.length then
      let pieces := Statement.splitAtCommas 0 (s.drop start)
      let (o, fields) := o.addDeclaredFields access withEvents pieces
      let keywords := (Statement.cover? (s.take start)).getD (.empty span.start)
      o.addItem (.fields ⟨o.source.text.extent span, keywords, fields⟩)
    else o
  | none => o

/-- Declares the member whose signature is the statement. -/
def addMember (o : Outline) (kind : DeclarationKind) (access : Access) (s : Statement)
    (signature : Statement.Signature) : Outline :=
  o.addDeclaration {
    name := signature.name, kind, parent := o.base, access, type? := signature.type?
    parameters := signature.parameters, extent := s.cover?.getD signature.name.span }

/-- The lines and columns of a whole statement that has this name in it. -/
def statementExtent (o : Outline) (s : Statement) (name : Token) : Extent :=
  o.source.text.extent (s.cover?.getD name.span)

def expected (o : Outline) (what : Expected) (s : Statement) : SyntaxFault :=
  .expected what (match s.head? with
    | some first => o.source.text.lineOf first.start
    | none => 1)

/-- Declares a record or an enumeration, of which only the first line is known yet. -/
def addBlock (o : Outline) (kind : DeclarationKind) (access : Access) (s : Statement)
    (name : Token) : Outline :=
  o.addDeclaration {
    name, kind, parent := o.base, access
    extent := ((s.head?.map Token.span).getD name.span).cover name.span }

/-- Reads a statement at module level (`module_statement`). -/
def codeStatement (o : Outline) (s : Statement) : Except SyntaxFault (Outline × Construct) :=
  match ModuleStatement.ofStatement s with
  | .ignored => .ok (o, .code)
  | .fileHeader => .ok (o, .fileHeader)
  | .implements =>
    match Statement.textIn? (s.drop 1) o.source.text, s.cover? with
    | some interface, some span =>
      .ok ({ o.addItem (.implements interface (o.source.text.extent span)) with
        interfaces := o.interfaces ++ [interface] }, .code)
    | _, _ => .ok (o, .code)
  | .procedure kind access nameAt closing =>
    match s.signature o.source.text nameAt with
    | .error what => .error (o.expected what s)
    | .ok signature =>
      .ok (o.addMember kind access s signature, .member {
        declaration := o.nextId, kind, signature := o.statementExtent s signature.name
        list? := signature.list?, closing })
  | .bodyless kind access nameAt =>
    match s.signature o.source.text nameAt with
    | .error what => .error (o.expected what s)
    | .ok signature =>
      let extent := o.statementExtent s signature.name
      .ok ((o.addMember kind access s signature).addItem (.member {
        declaration := o.nextId, kind, extent, signature := extent, list? := signature.list?
        body? := none }), .code)
  | .unknownAccessor => .error (o.expected .accessorKeyword s)
  | .record access nameAt =>
    match s[nameAt]? with
    | none => .error (o.expected .recordName s)
    | some name =>
      .ok (o.addBlock .record access s name, .record {
        declaration := o.nextId, start := (s.head?.map Token.start).getD name.start
        members := [] })
  | .enumeration access nameAt =>
    match s[nameAt]? with
    | none => .error (o.expected .enumerationName s)
    | some name => .ok (o.addBlock .enumeration access s name, .enumeration name.name)
  | .constants access start => .ok (o.addConstants o.base access (s.drop start), .code)
  | .fields access start => .ok (o.addFields access s start, .code)

def endOf (s : Statement) : Nat := (s.getLast?.map Token.stop).getD 0

def startOf (s : Statement) : Nat := (s.head?.map Token.start).getD 0

/-- Closes a member with its `End` statement, which sets the extent of its declaration
(`close_member`). -/
def endMember (o : Outline) (opened : UnclosedMember) (s : Statement) : Outline :=
  let extent := o.source.text.extent ⟨opened.signature.span.start, endOf s⟩
  let bodyStart := opened.signature.span.stop
  { o with
    declarations := o.declarations.map fun d =>
      if d.id = opened.declaration then { d with extent } else d
    items := o.items ++ [.member {
      declaration := opened.declaration, kind := opened.kind, extent
      signature := opened.signature, list? := opened.list?
      body? := some ⟨bodyStart, max (startOf s) bodyStart⟩ }] }

/-- The statement is `End` with this word. -/
def isEnd (s : Statement) (closing : Text) : Bool := s.isWord 0 "end" && s.isWord 1 closing

/-- Reads a statement inside a record (`type_member`). -/
def recordStatement (o : Outline) (opened : UnclosedRecord) (s : Statement) : Outline × Construct :=
  if isEnd s "type" then
    (o.addItem (.record {
      declaration := opened.declaration
      extent := o.source.text.extent ⟨opened.start, endOf s⟩
      members := opened.members
      endLine := o.source.text.lineOf (startOf s) }), .code)
  else
    match s.namedType? o.source.text, s.cover? with
    | some found, some span =>
      (o.addDeclaration {
        name := found.name, kind := .recordMember, parent := opened.declaration, access := .public
        type? := found.type?, isArray := found.bounds?.isSome, extent := span },
      .record { opened with
        members := opened.members ++ [⟨o.nextId, o.source.text.extent span⟩] })
    | _, _ => (o, .record opened)

/-- Reads a statement inside an enumeration; its members are constants of the module. -/
def enumerationStatement (o : Outline) (type : Text) (s : Statement) : Outline × Construct :=
  if isEnd s "enum" then (o, .code)
  else
    match s.head? with
    | some name =>
      if name.kind = .identifier then
        (o.addDeclaration {
          name, kind := .constant, parent := o.base, access := .public, type? := some type
          extent := s.cover?.getD name.span }, .enumeration type)
      else (o, .enumeration type)
    | none => (o, .enumeration type)

/-- Reads one statement in its block (`statement`). -/
def step (o : Outline) (block : Construct) (s : Statement) :
    Except SyntaxFault (Outline × Construct) :=
  match block with
  | .code => o.codeStatement s
  | .fileHeader => .ok (o, if s.length == 1 && s.isWord 0 "end" then .code else .fileHeader)
  | .member opened =>
    if isEnd s opened.closing then .ok (o.endMember opened s, .code)
    else
      let o := o.addLocalStatement opened.declaration s
      .ok ({ o with bodies := o.bodies ++ [⟨opened.declaration, s⟩] }, .member opened)
  | .record opened => .ok (o.recordStatement opened s)
  | .enumeration type => .ok (o.enumerationStatement type s)

def steps (o : Outline) (block : Construct) :
    List Statement → Except SyntaxFault (Outline × Construct)
  | [] => .ok (o, block)
  | s :: rest =>
    match o.step block s with
    | .error fault => .error fault
    | .ok (o, block) => o.steps block rest

/-- The outline of a module whose declarations are numbered from `base` (`parse`). -/
def read (base : DeclarationId) (source : Source) : Except Error Outline :=
  match (start base source).steps .code (Statement.ofTokens (tokenize source.text)) with
  | .error fault => .error (.syntaxFault source.id fault)
  | .ok (o, block) =>
    match block.closing? with
    | some word => .error (.syntaxFault source.id (.unclosed word))
    | none => .ok o

end Outline

end VbaRefactor
