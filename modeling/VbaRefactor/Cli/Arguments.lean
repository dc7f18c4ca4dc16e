import VbaRefactor.File.Path
import VbaRefactor.Plan.Basic

/-!
# Arguments of the command line

A command is a name with options before and after it. Options have a long name after two dashes, and
some a letter after one dash; letters can stand together. A value follows its option as the next
argument, or at once, with or without an equals sign. The first fault in the order of the arguments is
the one that counts; what is missing is noticed at the end.
-/

namespace VbaRefactor

namespace Cli

/-- Why arguments are no command, or a request for information instead of one. -/
inductive UsageFault where
  | missingRequired
  | unknownArgument
  | unknownCommand
  | invalidValue
  | malformedValue
  /-- An option that takes one value was given twice. -/
  | repeated
  | unwantedValue
  | noCommand
  | nothingGiven
  | help
  | version
deriving DecidableEq, Repr

namespace UsageFault

def message : UsageFault → Text
  | .missingRequired => "a required option is missing"
  | .unknownArgument => "an argument is not known"
  | .unknownCommand => "the command is not known"
  | .invalidValue => "an option has no valid value"
  | .malformedValue => "a field is not given as FIELD or FIELD:PROPERTY"
  | .repeated => "an option is given twice"
  | .unwantedValue => "an option takes no value"
  | .noCommand | .nothingGiven | .help =>
    "commands: reorder, encapsulate, plan, undo; options: --verbose, --json"
  | .version => "0.3.0"

end UsageFault

/-- A field as it is given on the command line, possibly with the name of its property. -/
structure FieldArgument where
  field : Text
  property? : Option Text
deriving DecidableEq, Repr

inductive FieldArgumentFault where
  | noField (text : Text)
  | noProperty (text : Text)
deriving DecidableEq, Repr

namespace FieldArgumentFault

def message : FieldArgumentFault → Text
  | .noField text => .concat ["missing field name in '", text, "'"]
  | .noProperty text => .concat ["missing property name in '", text, "'"]

end FieldArgumentFault

namespace FieldArgument

/-- The field that a text gives: a name, or two names with a colon between them. -/
def parse (text : Text) : Except FieldArgumentFault FieldArgument :=
  let (field, property?) := match text.splitFirst? ':' with
    | some (field, property) => (field.trim, some property.trim)
    | none => (text.trim, none)
  if field.isEmpty then .error (.noField text)
  else if property?.any List.isEmpty then .error (.noProperty text)
  else .ok ⟨field, property?⟩

end FieldArgument

inductive ValueKind where
  | text
  | names
  | path
  | memberKind
  | field
deriving DecidableEq, Repr

def memberKinds : List String :=
  ["sub", "function", "property-get", "property-let", "property-set", "event"]

namespace ValueKind

def fault? (value : Text) : ValueKind → Option UsageFault
  | .text | .names => none
  | .path => if value.isEmpty then some .invalidValue else none
  | .memberKind =>
    if memberKinds.contains (String.ofList value) then none else some .invalidValue
  | .field =>
    match FieldArgument.parse value with
    | .ok _ => none
    | .error _ => some .malformedValue

def values (value : Text) : ValueKind → List Text
  | .names => value.split ','
  | _ => [value]

end ValueKind

structure Opt where
  name : String
  letter? : Option Char
  /-- What its value is; a flag takes none. -/
  value? : Option ValueKind
  repeats : Bool
deriving DecidableEq, Repr

def flag (name : String) (letter? : Option Char) : Opt := ⟨name, letter?, none, false⟩

def option (name : String) (letter? : Option Char) (kind : ValueKind) : Opt :=
  ⟨name, letter?, some kind, false⟩

def options (name : String) (letter? : Option Char) (kind : ValueKind) : Opt :=
  ⟨name, letter?, some kind, true⟩

/-- The options that stand before or after the command. -/
def sharedOptions : List Opt := [flag "verbose" 'v', flag "json" none, flag "help" 'h']

def topOptions : List Opt := sharedOptions ++ [flag "version" 'V']

def writeOptions : List Opt :=
  [flag "dry-run" none, flag "create-backup" none, option "operation-id" none .text]

def moduleOptions : List Opt := [option "dir" 'd' .path, option "pattern" none .text]

inductive CommandName where
  | reorder
  | encapsulate
  | plan
  | undo
deriving DecidableEq, Repr

namespace CommandName

def ofText? (name : Text) : Option CommandName :=
  match String.ofList name with
  | "reorder" => some .reorder
  | "encapsulate" => some .encapsulate
  | "plan" => some .plan
  | "undo" => some .undo
  | _ => none

def options : CommandName → List Opt
  | .reorder => moduleOptions ++ writeOptions ++ sharedOptions ++ [
      option "target" 't' .text, option "kind" 'k' .memberKind, Cli.options "order" 'o' .names,
      option "interface" none .text, flag "yes" 'y']
  | .encapsulate => moduleOptions ++ writeOptions ++ sharedOptions ++ [
      option "module" 'm' .text, Cli.options "field" 'f' .field, Cli.options "read-only" none .text,
      flag "object-state" none, option "existing-state" none .text, flag "indent" none]
  | .plan => moduleOptions ++ writeOptions ++ sharedOptions ++ [
      option "file" 'f' .path, flag "yes" 'y']
  | .undo => sharedOptions ++ [option "dir" 'd' .path, option "manifest" 'm' .path]

def required : CommandName → List String
  | .reorder => ["dir", "target", "order"]
  | .encapsulate => ["dir", "module", "field"]
  | .plan => ["dir", "file"]
  | .undo => ["dir"]

end CommandName

/-- Options that were given, with their values in order; a flag has none. -/
structure Given where
  names : List String
  values : List (String × Text)
deriving DecidableEq, Repr

namespace Given

def nothing : Given := ⟨[], []⟩

def has (g : Given) (name : String) : Bool := g.names.contains name

def all (g : Given) (name : String) : List Text := (g.values.filter (·.1 == name)).map Prod.snd

def value? (g : Given) (name : String) : Option Text := (g.all name).head?

def add (g : Given) (o : Opt) (values : List Text) : Except UsageFault Given :=
  if !o.repeats && g.has o.name then .error .repeated
  else .ok ⟨g.names ++ [o.name], g.values ++ values.map (o.name, ·)⟩

end Given

structure Scan where
  given : Given
  /-- An option whose value is not taken yet, and the value if it has come. -/
  pending? : Option (Opt × ValueKind × Option Text)
  /-- Two dashes alone were given: no option follows. -/
  ended : Bool
deriving DecidableEq, Repr

namespace Scan

def start : Scan := ⟨.nothing, none, false⟩

def take (s : Scan) (o : Opt) (kind : ValueKind) (value : Text) : Except UsageFault Scan := do
  let values := kind.values value
  let given ← s.given.add o values
  match values.findSome? kind.fault? with
  | some fault => throw fault
  | none => return { s with given }

/-- Takes the value that is pending; it has to be there. -/
def settle (s : Scan) : Except UsageFault Scan :=
  match s.pending? with
  | none => .ok s
  | some (_, _, none) => .error .invalidValue
  | some (o, kind, some value) => take { s with pending? := none } o kind value

def flag (s : Scan) (o : Opt) : Except UsageFault Scan := do
  let s ← s.settle
  if o.name == "help" then throw .help
  if o.name == "version" then throw .version
  return { s with given := ← s.given.add o [] }

/-- An option with a value was given, which may be attached. -/
def valued (s : Scan) (o : Opt) (kind : ValueKind) : Option Text → Except UsageFault Scan
  | some value => do (← s.settle).take o kind value
  | none => do return { (← s.settle) with pending? := some (o, kind, none) }

/-- An option with its long name, possibly with a value attached. -/
def long (s : Scan) (known : List Opt) (text : Text) : Except UsageFault Scan :=
  let (name, attached?) := match text.splitFirst? '=' with
    | some (name, value) => (name, some value)
    | none => (text, none)
  match known.find? (·.name.toList == name) with
  | none => .error .unknownArgument
  | some o =>
    match o.value? with
    | some kind => s.valued o kind attached?
    | none => if attached?.isSome then .error .unwantedValue else s.flag o

/-- Letters that stand together; what follows the letter of an option with a value is its value. -/
def letters (s : Scan) (known : List Opt) : Text → Except UsageFault Scan
  | [] => .ok s
  | c :: rest =>
    match known.find? (·.letter? == some c) with
    | none => .error .unknownArgument
    | some o =>
      match o.value? with
      | none =>
        match s.flag o with
        | .ok s => letters s known rest
        | .error e => .error e
      | some kind =>
        s.valued o kind <| match rest with
          | [] => none
          | '=' :: value => some value
          | value => some value

def argument (s : Scan) (known : List Opt) (text : Text) : Except UsageFault Scan :=
  if s.ended then .error .unknownArgument
  else
    match text, s.pending? with
    | ['-', '-'], _ => .ok { s with ended := true }
    | '-' :: '-' :: name, _ => s.long known name
    | '-' :: c :: rest, _ => s.letters known (c :: rest)
    | value, some (o, kind, none) => .ok { s with pending? := some (o, kind, some value) }
    | _, _ => .error .unknownArgument

end Scan

structure WriteMode where
  dryRun : Bool
  createBackup : Bool
  operationId? : Option Text
deriving DecidableEq, Repr

inductive Command where
  /-- Carries out one step; `yes` gives consent to all questions. -/
  | step (directory : Path) (pattern : Text) (step : Step) (yes : Bool) (options : WriteMode)
  | plan (directory : Path) (pattern : Text) (file : Path) (yes : Bool) (options : WriteMode)
  | undo (directory : Path) (manifest? : Option Path)
deriving DecidableEq, Repr

/-- A command with the options that go with every command. -/
structure Invocation where
  command : Command
  verbose : Bool
  json : Bool
deriving DecidableEq, Repr

namespace CommandName

def step (g : Given) : CommandName → Step
  | .encapsulate => .encapsulate {
      module := (g.value? "module").getD []
      fields := (g.all "field").filterMap fun text =>
        match FieldArgument.parse text with
        | .ok spec => some ⟨spec.field, spec.property?,
            (g.all "read-only").any fun name => decide (name.SameName spec.field)⟩
        | .error _ => none
      record? := if g.has "object-state" then some ⟨g.value? "existing-state"⟩ else none
      indent := g.has "indent" }
  | _ => .reorder {
      target := (g.value? "target").getD []
      kind? := g.value? "kind"
      order := g.all "order"
      interface? := g.value? "interface" }

def command (name : CommandName) (g : Given) : Command :=
  let directory : Path := ⟨(g.value? "dir").getD []⟩
  let pattern := (g.value? "pattern").getD "**/*"
  let write : WriteMode := ⟨g.has "dry-run", g.has "create-backup", g.value? "operation-id"⟩
  match name with
  | .plan => .plan directory pattern ⟨(g.value? "file").getD []⟩ (g.has "yes") write
  | .undo => .undo directory ((g.value? "manifest").map Path.mk)
  | _ => .step directory pattern (name.step g) (g.has "yes") write

/-- Something that the options of a command need is missing. -/
def lacks (name : CommandName) (g : Given) : Bool :=
  name.required.any (!g.has ·) || (g.has "existing-state" && !g.has "object-state")

/-- Reads the arguments of a command after the options before it. -/
def parse (name : CommandName) (top : Given) (arguments : List Text) :
    Except UsageFault Invocation := do
  let scan ← arguments.foldlM (·.argument name.options ·) Scan.start
  let g := (← scan.settle).given
  if name.lacks g then throw .missingRequired
  return ⟨name.command g, top.has "verbose" || g.has "verbose", top.has "json" || g.has "json"⟩

end CommandName

/-- A request for help about commands; there is only one level of them. -/
def helpFault (arguments : List Text) : UsageFault :=
  let isKnown := fun (name : Text) => name == "help".toList || (CommandName.ofText? name).isSome
  match arguments with
  | [] => .help
  | [name] => if isKnown name then .help else .unknownCommand
  | _ => .unknownCommand

/-- Reads arguments up to the command and then its own. -/
def parseFrom (s : Scan) : List Text → Except UsageFault Invocation
  | [] => .error (if s.given.names.isEmpty then .nothingGiven else .noCommand)
  | text :: rest =>
    let isHelp := text == "help".toList
    if s.ended then
      .error (if isHelp || (CommandName.ofText? text).isSome then .unknownArgument else .unknownCommand)
    else if isHelp then .error (helpFault rest)
    else
      match CommandName.ofText? text with
      | some name => name.parse s.given rest
      | none =>
        if text.head? = some '-' && text.length ≠ 1 then
          match s.argument topOptions text with
          | .ok s => parseFrom s rest
          | .error e => .error e
        else .error .unknownCommand

/-- Reads the arguments of the command line (`parse_args`). -/
def parse (arguments : List Text) : Except UsageFault Invocation := parseFrom .start arguments

end Cli

end VbaRefactor
