import VbaRefactor.Index
import VbaRefactor.Scope

/-!
# Projects

A project is a set of modules that were read together: the text and items of each, and the index over
all of them. First every module gets its outline, then the bodies are bound, so that a name can be
declared in a later module than it is used in.
-/

namespace VbaRefactor

structure ModuleContent where
  source : Source
  items : List Item

structure Project where
  index : Index
  modules : ModuleMap ModuleContent

namespace Project

/-- The outlines of modules whose declarations are numbered from `base`. -/
def outlines (base : DeclarationId) : List Source → Except Error (List Outline)
  | [] => .ok []
  | source :: rest =>
    match Outline.read base source with
    | .error e => .error e
    | .ok outline =>
      match outlines outline.nextId rest with
      | .error e => .error e
      | .ok more => .ok (outline :: more)

def ofOutlines (outlines : List Outline) : Project :=
  let declarations := outlines.flatMap Outline.declarations
  let scope : Scope := ⟨declarations, .ofList (outlines.map fun o => (o.source.id, o.source.kind))⟩
  { index := {
      declarations
      references := outlines.flatMap fun o => scope.references o.source none [] o.bodies
      interfaces := .ofList ((outlines.filter (!·.interfaces.isEmpty)).map fun o =>
        (o.source.id, o.interfaces)) }
    modules := .ofList (outlines.map fun o => (o.source.id, ⟨o.source, o.items⟩)) }

/-- Reads modules together (`build_snapshot`). -/
def read (sources : List Source) : Except Error Project := (outlines 0 sources).map ofOutlines

def moduleOf (p : Project) (m : ModuleName) : Except Error ModuleContent :=
  match p.modules.get? m with
  | some module => .ok module
  | none => .error (.moduleNotFound m.shown)

def moduleNamed? (p : Project) (name : Text) : Option ModuleContent :=
  (p.modules.map Prod.snd).find? fun m => decide (m.source.id.component.SameName name)

def declaration (p : Project) (id : DeclarationId) : Except Error Declaration :=
  match p.index.get? id with
  | some d => .ok d
  | none => .error (.declarationNotFound (.declaration id))

def memberItem? (p : Project) (id : DeclarationId) : Option MemberItem :=
  (p.index.get? id).bind fun d =>
    (p.modules.get? d.module).bind fun m => Item.findMember? m.items id

def texts (p : Project) : ModuleMap Text := p.modules.map fun (id, m) => (id, m.source.text)

end Project

end VbaRefactor
