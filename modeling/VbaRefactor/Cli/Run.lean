import VbaRefactor.Cli.Arguments
import VbaRefactor.Plan.Document
import VbaRefactor.Workspace

/-!
# Running commands

A command loads a workspace, works out the changes, and writes or shows them. What it says is either a
message, or a JSON document with the details.
-/

namespace VbaRefactor

open Json (Value)

namespace Cli

structure Report where
  message : Text
  data? : Option Value

structure Response where
  exitCode : UInt32
  output : Text
  errors : Text
deriving DecidableEq, Repr

def skippedValue (site : SkippedUse) : Value :=
  .record [("line", .nat site.line),
    ("module", .record [("component", .text site.module.component),
      ("project", .text site.module.project)]),
    ("reason", .text site.reason)]

def skippedField (sites : List SkippedUse) : String × Value :=
  ("skipped", .array (sites.map skippedValue))

def reportValue (r : StepResult) : Value :=
  .record [("action", .text r.action),
    ("modules", .array (r.modules.map fun m => .text m.shown)),
    skippedField r.skipped,
    ("step", .nat r.number)]

def writeValue (w : FileWrite) : Value :=
  .record [("after_hash", .text w.afterHash), ("before_hash", .text w.beforeHash),
    ("file", .text w.file.text), ("module", .text w.module.shown)]

def shownTexts (changes : Changes) : Text :=
  let shown := changes.map fun (m, text) => Text.concat ["=== ", m.shown, " ===\n", text]
  ['\n'].intercalate shown

/-- The new texts by the names of the modules, in order of the names. -/
def textsValue (changes : Changes) : Value :=
  let named := changes.map fun (m, text) => (m.shown, text)
  .object ((named.mergeSort fun a b => (Text.order a.1 b.1).isLE).map fun (name, text) =>
    (some name, .text text))

variable {m : Type → Type} [Monad m]

/-- Writes or shows the changes of an operation. The details end with `more`. -/
def conclude (disk : Disk m) (w : Workspace) (operation : Text) (changes : Changes)
    (skipped : List SkippedUse) (options : WriteMode) (more : List (String × Value)) :
    ExceptT Error m Report := do
  let closing := skippedField skipped :: more
  if changes.isEmpty then
    return ⟨.concat [operation, ": no changes"], some (.record closing)⟩
  else if options.dryRun then
    return ⟨shownTexts changes, some (.record (("modules", textsValue changes) :: closing))⟩
  else
    let backup? ← if options.createBackup then
        some <$> Backup.start disk w.root operation options.operationId?
      else pure none
    let (writes, backup?) ← w.apply disk changes backup?
    let manifest ← match backup? with
      | some backup => do
        let path ← backup.finish disk
        pure [("backup_manifest", Value.text path.text)]
      | none => pure []
    let files := ("files", Value.array (writes.map writeValue))
    return ⟨.concat [operation, ": rewrote ", .ofNat writes.length, " module(s), skipped ",
      .ofNat skipped.length, " site(s)"], some (.record (manifest ++ files :: closing))⟩

/-- The result of a computation, or its error. -/
def lift {α : Type} (result : Except Error α) : ExceptT Error m α := ExceptT.mk (pure result)

namespace Command

def run (disk : Disk m) : Command → ExceptT Error m Report
  | .step directory pattern single yes options => do
    let w ← Workspace.load disk directory pattern
    let outcome ← lift (single.run w.project fun _ => yes)
    conclude disk w single.action outcome.changes outcome.skipped options []
  | .plan directory pattern file yes options => do
    let document ← lift (Plan.parse (← disk.readText file))
    let w ← Workspace.load disk directory pattern
    let outcome ← lift (document.run (w.project.modules.map (·.2.source)) fun _ => yes)
    conclude disk w "plan" outcome.changes (outcome.reports.flatMap StepResult.skipped) options
      [("steps", .array (outcome.reports.map reportValue))]
  | .undo directory manifest? => do
    let manifest ← match manifest? with
      | some manifest => pure manifest
      | none =>
        match ← Backup.latest? disk directory with
        | some manifest => pure manifest
        | none => throw (.noBackup directory.text)
    let count ← Backup.restore disk manifest directory
    return ⟨.concat ["Restored ", .ofNat count, " file(s) from ", manifest.text], none⟩

end Command

def successValue (r : Report) : Value :=
  .record ([("status", .text "ok"), ("message", .text r.message)]
    ++ r.data?.toList.map fun data => ("data", data))

def errorValue (e : Error) : Value :=
  .record [("status", .text "error"),
    ("error", .record ([("kind", .text e.label), ("message", .text e.message)]
      ++ e.module?.toList.map (fun module => ("module", .text module))
      ++ e.hint?.toList.map fun hint => ("hint", .text hint)))]

def respond (json : Bool) : Except Error Report → Response
  | .ok report =>
    ⟨0, (if json then Json.print (successValue report) else report.message) ++ ['\n'], []⟩
  | .error e =>
    if json then ⟨1, Json.print (errorValue e) ++ ['\n'], []⟩
    else
      let hint := (e.hint?.map fun hint => Text.concat ["Hint: ", hint, "\n"]).getD []
      ⟨1, [], .concat ["Error: ", e.message, "\n", hint]⟩

def respondUsage (fault : UsageFault) : Response :=
  let text := fault.message ++ ['\n']
  if fault = .help || fault = .version then ⟨0, text, []⟩ else ⟨2, [], .concat ["error: ", text]⟩

def run (disk : Disk m) (arguments : List Text) : m Response := do
  match parse arguments with
  | .error fault => return respondUsage fault
  | .ok invocation =>
    let result ← (invocation.command.run disk).run
    return respond invocation.json result

end Cli

end VbaRefactor
