import VbaRefactor.Declaration
import VbaRefactor.Text.Lines

/-!
# Sources

The text of a module together with its identity and kind.
-/

namespace VbaRefactor

structure Source where
  id : ModuleName
  kind : ModuleKind
  text : Text
deriving DecidableEq, Repr, Inhabited

end VbaRefactor
