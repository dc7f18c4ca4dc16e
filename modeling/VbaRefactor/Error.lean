import VbaRefactor.Declaration
import VbaRefactor.Text.Quoted

/-!
# Errors

Every way a request can fail, as a cause. `Error.message` is the only place that words it,
`Error.label` names its class, and `Error.hint?` says what to do about it.
-/

namespace VbaRefactor

inductive Expected where
  | accessorKeyword
  | memberName
  | closingParenthesis
  | recordName
  | enumerationName
deriving DecidableEq, Repr

namespace Expected

def shown : Expected → Text
  | .accessorKeyword => "property accessor keyword"
  | .memberName => "member name"
  | .closingParenthesis => "closing parenthesis"
  | .recordName => "type name"
  | .enumerationName => "enum name"

end Expected

inductive SyntaxFault where
  | expected (what : Expected) (line : Nat)
  /-- The module ends inside a block that this keyword closes. -/
  | unclosed (keyword : Text)
deriving DecidableEq, Repr

namespace SyntaxFault

def message : SyntaxFault → Text
  | .expected what line => .concat ["expected ", what.shown, " on line ", .ofNat line]
  | .unclosed keyword => .concat ["missing 'End ", keyword, "' at end of module"]

end SyntaxFault

inductive Missing where
  | declaration (id : DeclarationId)
  | member (module? : Option Text) (name : Text)
  | parameter (name owner : Text)
deriving DecidableEq, Repr

namespace Missing

def shown : Missing → Text
  | .declaration id => '#' :: Text.ofNat id
  | .member none name => name
  | .member (some module) name => module ++ '.' :: name
  | .parameter name owner => .concat ["parameter '", name, "' of ", owner]

end Missing

inductive OrderFault where
  | notAPermutation (expected : Nat) (found : List Nat)
  /-- This required parameter would follow an optional one. -/
  | optionalNotTrailing (parameter : Text)
  /-- This parameter takes all remaining arguments and would not be last. -/
  | paramArrayNotLast (parameter : Text)
deriving DecidableEq, Repr

namespace OrderFault

def label : OrderFault → Text
  | .notAPermutation .. => "NotAPermutation"
  | .optionalNotTrailing _ => "OptionalNotTrailing"
  | .paramArrayNotLast _ => "ParamArrayNotLast"

def message : OrderFault → Text
  | .notAPermutation expected found =>
    .concat ["order ", Text.bracketed (found.map Text.ofNat), " is not a permutation of 0..",
      .ofNat expected]
  | .optionalNotTrailing parameter =>
    .concat ["optional parameters must be last, but '", parameter, "' follows an optional parameter"]
  | .paramArrayNotLast parameter =>
    .concat ["ParamArray parameter '", parameter, "' must be last"]

end OrderFault

inductive RecordFault where
  | notAField (name : Text) (kind : DeclarationKind)
  | notPrivate (name : Text)
  | notALocalRecord (type component : Text)
  | otherModule (type : Text) (record fields : ModuleName)
  /-- The field that holds the record was itself requested. -/
  | requested (name : Text)
deriving DecidableEq, Repr

namespace RecordFault

def message : RecordFault → Text
  | .notAField name kind => .concat ["'", name, "' is a ", kind.label, ", not a field"]
  | .notPrivate name => .concat ["'", name, "' must be Private"]
  | .notALocalRecord type component =>
    .concat ["'", type, "' is not a user-defined type of ", component]
  | .otherModule type record fields =>
    .concat [type, " belongs to ", record.shown, ", the fields to ", fields.shown]
  | .requested name => .concat ["'", name, "' holds the object state and cannot be encapsulated"]

end RecordFault

/-- What stands in the way of a refactoring at one place of the code. -/
inductive Element where
  | memberSignature
  | parameterList
  | parameter
  | argumentList
  | positionalArguments
  | requiredArgument
  | fieldLine
  | declarator
  | recordBlock (type : Text)
deriving DecidableEq, Repr

namespace Element

def shown : Element → Text
  | .memberSignature => "member signature"
  | .parameterList => "parameter list"
  | .parameter => "parameter"
  | .argumentList => "argument list"
  | .positionalArguments =>
    "positional argument list (named and positional arguments are mixed)"
  | .requiredArgument => "argument for a required parameter"
  | .fieldLine => "field declaration"
  | .declarator => "declarator"
  | .recordBlock type => .concat ["Type ", type, " block"]

end Element

inductive PlanFault where
  /-- It is not a document of the expected shape. -/
  | malformed
  | noSteps
  | emptyTarget (step : Nat)
  | unknownKind (step : Nat) (kind : Text)
  | emptyModule (step : Nat)
  | emptyField (step : Nat)
deriving DecidableEq, Repr

namespace PlanFault

def message : PlanFault → Text
  | .malformed => "JSON parse error"
  | .noSteps => "Plan must contain at least one step"
  | .emptyTarget step => .concat ["Step ", .ofNat step, " has empty 'target' field"]
  | .unknownKind step kind => .concat ["Step ", .ofNat step, " has invalid 'kind': '", kind, "'"]
  | .emptyModule step => .concat ["Step ", .ofNat step, " has empty 'module' field"]
  | .emptyField step => .concat ["Step ", .ofNat step, " has a field with an empty name"]

end PlanFault

inductive FileFault where
  | notFound
  | isDirectory
  | notDirectory
  | alreadyExists
  | notText
  | described (text : Text)
deriving DecidableEq, Repr

namespace FileFault

def message : FileFault → Text
  | .notFound => "No such file or directory (os error 2)"
  | .isDirectory => "Is a directory (os error 21)"
  | .notDirectory => "Not a directory (os error 20)"
  | .alreadyExists => "File exists (os error 17)"
  | .notText => "stream did not contain valid UTF-8"
  | .described text => text

end FileFault

inductive PatternProblem where
  /-- More than two asterisks in a row. -/
  | asterisks
  /-- Two asterisks beside something else. -/
  | partialName
  /-- A bracket that opens no set of characters. -/
  | brackets
deriving DecidableEq, Repr

namespace PatternProblem

def message : PatternProblem → Text
  | .asterisks => "wildcards are either regular `*` or recursive `**`"
  | .partialName => "recursive wildcards must form a single path component"
  | .brackets => "invalid range pattern"

end PatternProblem

inductive RefillFault where
  /-- The refill at this place of the list is needed for its own content. -/
  | circular (place : Nat)
  /-- A span does not lie in the text in order. -/
  | badSpan (span : Span)
deriving DecidableEq, Repr

inductive Error where
  | file (path : Text) (fault : FileFault)
  | syntaxFault (module : ModuleName) (fault : SyntaxFault)
  | moduleNotFound (name : Text)
  | declarationNotFound (missing : Missing)
  | ambiguousDeclaration (name : Text) (candidates : List Text)
  | invalidTargetKind (name kind : Text)
  | invalidOrder (rule : OrderFault)
  | missingElement (module : ModuleName) (line : Nat) (element : Element)
  | aborted
  | accessorMismatch (name accessor : Text)
  | parameterCount (name : Text) (expected found : Nat)
  | overlappingEdits (module : ModuleName) (first second : Nat × Nat)
  | invalidLineRange (module : ModuleName) (first last : Nat)
  | invalidRecord (fault : RecordFault)
  | nameConflict (name : Text) (module : ModuleName)
  | invalidPlan (fault : PlanFault)
  | stepFailed (step : Nat) (cause : Error)
  | unknownKind (name : Text)
  | badPattern (pattern : Text) (position : Nat) (problem : PatternProblem)
  | exportedTwice (module : ModuleName) (first second : Text)
  | badManifest
  | outsideRoot (path root : Text)
  | hashMismatch (path expected found : Text)
  | noBackup (directory : Text)
  | refillFault (fault : RefillFault)
deriving DecidableEq, Repr

namespace Error

def label : Error → Text
  | .file .. => "Io"
  | .syntaxFault .. => "Parse"
  | .moduleNotFound _ => "ModuleNotFound"
  | .declarationNotFound _ => "DeclarationNotFound"
  | .ambiguousDeclaration .. => "AmbiguousDeclaration"
  | .invalidTargetKind .. => "InvalidTargetKind"
  | .invalidOrder _ => "InvalidParameterOrder"
  | .missingElement .. => "MissingSyntaxElement"
  | .aborted => "UserAborted"
  | .accessorMismatch .. => "AmbiguousAccessorState"
  | .parameterCount .. => "MirrorMismatch"
  | .overlappingEdits .. => "OverlappingEdits"
  | .invalidLineRange .. => "InvalidLineRange"
  | .invalidRecord _ => "InvalidObjectState"
  | .nameConflict .. => "NameConflict"
  | .invalidPlan _ => "InvalidPlanSchema"
  | .stepFailed .. => "PlanExecutionFailed"
  | _ => "Other"

def message : Error → Text
  | .file path fault => .concat ["I/O error for path ", path, ": ", fault.message]
  | .syntaxFault module fault => .concat ["Parse error in ", module.shown, ": ", fault.message]
  | .moduleNotFound name => .concat ["Module not found: ", name]
  | .declarationNotFound missing => .concat ["Declaration not found: ", missing.shown]
  | .ambiguousDeclaration name candidates =>
    .concat ["Ambiguous declaration '", name, "': candidates ",
      Text.bracketed (candidates.map Text.quoted)]
  | .invalidTargetKind name kind => .concat ["Invalid target kind: '", name, "' is a ", kind]
  | .invalidOrder rule => .concat ["Invalid parameter order: ", rule.message]
  | .missingElement module line element =>
    .concat ["Missing ", element.shown, " at ", module.shown, ":", .ofNat line]
  | .aborted => "Refactoring aborted by user"
  | .accessorMismatch name accessor =>
    .concat ["Accessor '", accessor, "' of property '", name, "' does not match its siblings"]
  | .parameterCount name expected found =>
    .concat ["Mirror '", name, "' has ", .ofNat found, " parameters, expected ", .ofNat expected]
  | .overlappingEdits module first second =>
    .concat ["Overlapping edits in ", module.shown, ": lines ", lineRange first, " and ",
      lineRange second]
  | .invalidLineRange module first last =>
    .concat ["Invalid line range ", .ofNat first, "..=", .ofNat last, " in ", module.shown]
  | .invalidRecord fault => .concat ["Invalid object state type: ", fault.message]
  | .nameConflict name module =>
    .concat ["Identifier '", name, "' already exists in ", module.shown]
  | .invalidPlan fault => .concat ["Invalid plan schema: ", fault.message]
  | .stepFailed step cause =>
    .concat ["Plan execution failed at step ", .ofNat step, ": ", cause.message]
  | .unknownKind name => .concat ["Unknown declaration kind: ", name]
  | .badPattern pattern position problem =>
    .concat ["Invalid glob pattern '", pattern, "': Pattern syntax error near position ",
      .ofNat position, ": ", problem.message]
  | .exportedTwice module first second =>
    .concat ["Module ", module.shown, " is exported twice: ", first, " and ", second]
  | .badManifest => "Failed to parse manifest"
  | .outsideRoot path root =>
    .concat ["File '", path, "' is not under workspace root '", root, "'"]
  | .hashMismatch path expected found =>
    .concat ["Hash mismatch for ", path, ": expected ", expected, ", got ", found]
  | .noBackup directory => .concat ["No backup found under ", directory]
  | .refillFault (.circular place) => .concat ["Refill ", .ofNat place, " contains itself"]
  | .refillFault (.badSpan span) =>
    .concat ["Span ", lineRange (span.start, span.stop), " is not part of the text"]
where
  lineRange (range : Nat × Nat) : Text := .concat ["(", .ofNat range.1, ", ", .ofNat range.2, ")"]

def hint? : Error → Option Text
  | .ambiguousDeclaration .. => some "Pass --kind or qualify the member with its module"
  | .invalidOrder (.notAPermutation ..) =>
    some "List every parameter exactly once (value parameters excluded)"
  | .invalidOrder (.optionalNotTrailing _) =>
    some "Keep Optional parameters after all required parameters"
  | .invalidOrder (.paramArrayNotLast _) => some "Keep the ParamArray parameter last"
  | .accessorMismatch .. =>
    some "Make the Get/Let/Set parameter lists identical before reordering"
  | .aborted => some "Re-run with --yes to accept the interface target"
  | .nameConflict .. => some "Choose a different property name"
  | _ => none

def module? : Error → Option Text
  | .syntaxFault module _ | .missingElement module _ _ | .overlappingEdits module _ _
  | .invalidLineRange module _ _ | .nameConflict _ module => some module.shown
  | .moduleNotFound name => some name
  | _ => none

end Error

end VbaRefactor
