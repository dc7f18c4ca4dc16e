import VbaRefactor.Edit.Refill
import VbaRefactor.Project

/-!
# Outcomes

What a refactoring gives: the new texts of the modules it changes, and the places it had to leave as
they are.
-/

namespace VbaRefactor

structure SkippedUse where
  module : ModuleName
  line : Nat
  reason : Text
deriving DecidableEq, Repr

/-- The result of a refactoring; no changes mean that all texts stay. -/
structure Outcome where
  changes : Changes
  skipped : List SkippedUse
deriving DecidableEq, Repr

def Outcome.unchanged : Outcome := ⟨[], []⟩

def Project.editQueue (p : Project) : EditQueue :=
  .start (p.modules.map fun (id, m) => (id, .ofText m.source.text))

def Project.refill (p : Project) (q : EditQueue) : ModuleMap (List Refill) → Except Error EditQueue
  | [] => .ok q
  | (m, refills) :: rest =>
    match p.moduleOf m with
    | .error e => .error e
    | .ok module =>
      match q.refill module.source.id module.source.text refills with
      | (q, none) => p.refill q rest
      | (_, some e) => .error e

end VbaRefactor
