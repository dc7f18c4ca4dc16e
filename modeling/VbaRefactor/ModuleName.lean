import VbaRefactor.Text.Basic

/-!
# Module names

A module is known by the names of its project and of its component. Case does not count: two
names are the same, and are ordered, by their folded names, while each keeps its spelling.
`ModuleMap` is a table in that order.
-/

namespace VbaRefactor

/-- The name of a module: its project and its component. -/
structure ModuleName where
  project : Text
  component : Text
deriving DecidableEq, Repr, Inhabited

namespace ModuleName

/-- The folded names; they decide identity and order. -/
def key (m : ModuleName) : Text × Text := (m.project.fold, m.component.fold)

/-- Both name the same module. -/
def Same (a b : ModuleName) : Prop := a.key = b.key

instance (a b : ModuleName) : Decidable (Same a b) := inferInstanceAs (Decidable (_ = _))

theorem Same.refl (a : ModuleName) : Same a a := rfl

theorem Same.symm {a b : ModuleName} (h : Same a b) : Same b a := Eq.symm h

theorem Same.trans {a b c : ModuleName} (h : Same a b) (h' : Same b c) : Same a c := Eq.trans h h'

/-- First by project, then by component. -/
def order (a b : ModuleName) : Ordering :=
  (Text.order a.key.1 b.key.1).then (Text.order a.key.2 b.key.2)

def shown (m : ModuleName) : Text := m.project ++ '.' :: m.component

end ModuleName

/-- A table with one entry per module, in the order of the modules. -/
abbrev ModuleMap (α : Type) := List (ModuleName × α)

namespace ModuleMap

variable {α : Type}

/-- Sets the value of a module. A module that is there keeps the spelling of its name. -/
def insert (m : ModuleName) (value : α) : ModuleMap α → ModuleMap α
  | [] => [(m, value)]
  | (k, old) :: rest =>
    match ModuleName.order m k with
    | .lt => (m, value) :: (k, old) :: rest
    | .eq => (k, value) :: rest
    | .gt => (k, old) :: insert m value rest

def get? (table : ModuleMap α) (m : ModuleName) : Option α :=
  (table.find? fun entry => decide (entry.1.Same m)).map Prod.snd

/-- Applies `f` to the value of a module, which is `start` where there is none yet. -/
def update (table : ModuleMap α) (m : ModuleName) (start : α) (f : α → α) : ModuleMap α :=
  insert m (f ((get? table m).getD start)) table

/-- The table of a list of entries; of two entries for one module the later one counts. -/
def ofList (entries : List (ModuleName × α)) : ModuleMap α :=
  entries.foldl (fun table entry => insert entry.1 entry.2 table) []

def erase (table : ModuleMap α) (m : ModuleName) : ModuleMap α :=
  table.filter fun entry => !decide (entry.1.Same m)

/-- The table of a list of entries; of two entries for one module the later one counts, with its
spelling of the name. -/
def ofLatest (entries : List (ModuleName × α)) : ModuleMap α :=
  entries.foldl (fun table entry => insert entry.1 entry.2 (erase table entry.1)) []

end ModuleMap

end VbaRefactor
