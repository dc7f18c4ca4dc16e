import VbaRefactor.Index
import VbaRefactor.ParameterRules

/-!
# What changes together with a member

When the parameters of a member change places, so do those of the other accessors of the same
property, of the implementations of an interface member, and of the handlers of an event, and so on
from each of these. `Index.affected` collects them, each once.
-/

namespace VbaRefactor

inductive ChangeReason where
  /-- It is the target itself, or a use of a changed member. -/
  | direct
  | accessor
  | implementation
  | handler
deriving DecidableEq, Repr

/-- A place that changes: the signature of a declaration, or a use of it. -/
structure ChangedPlace where
  declaration : Declaration
  reason : ChangeReason
  reference? : Option Reference

namespace Index

/-- The other accessors of the property of a declaration. None may occur twice, and their parameters
have to agree. -/
def relatedAccessors (index : Index) (d : Declaration) :
    Except Error (List (Declaration × ChangeReason)) :=
  if d.kind.isProperty then
    let accessors := index.accessorsOf d
    let repeated? := [DeclarationKind.propertyGet, .propertyLet, .propertySet].find? fun kind =>
      1 < (accessors.filter (·.kind = kind)).length
    match repeated? with
    | some kind => .error (.accessorMismatch d.qualifiedName kind.label)
    | none =>
      let others := accessors.filter (·.id ≠ d.id)
      match others.find? fun other => !d.sameParameters other with
      | some other => .error (.accessorMismatch d.qualifiedName other.kind.label)
      | none => .ok (others.map (·, .accessor))
  else .ok []

/-- Members that have to have as many parameters as a declaration. -/
def counterparts (d : Declaration) (reason : ChangeReason) (found : List Declaration) :
    Except Error (List (Declaration × ChangeReason)) :=
  match found.find? fun other => other.parameters.length ≠ d.parameters.length with
  | some other =>
    .error (.parameterCount other.qualifiedName d.parameters.length other.parameters.length)
  | none => .ok (found.map (·, reason))

/-- The declarations that change directly with a declaration. -/
def related (index : Index) (d : Declaration) : Except Error (List (Declaration × ChangeReason)) :=
  match index.relatedAccessors d with
  | .error e => .error e
  | .ok accessors =>
    match counterparts d .implementation (index.implementationsOf d.id) with
    | .error e => .error e
    | .ok implementations =>
      match counterparts d .handler (index.handlersOf d.id) with
      | .error e => .error e
      | .ok handlers => .ok (accessors ++ implementations ++ handlers)

/-- Those of the found declarations that have not been seen, each once, and what is unseen then. -/
def takeUnseen (unseen : List DeclarationId) :
    List (Declaration × ChangeReason) → List (Declaration × ChangeReason) × List DeclarationId
  | [] => ([], unseen)
  | (d, reason) :: rest =>
    if d.id ∈ unseen then
      let (fresh, unseen) := takeUnseen (unseen.filter (· ≠ d.id)) rest
      ((d, reason) :: fresh, unseen)
    else takeUnseen unseen rest

theorem takeUnseen_length (unseen : List DeclarationId)
    (found : List (Declaration × ChangeReason)) :
    (takeUnseen unseen found).1.length + (takeUnseen unseen found).2.length ≤ unseen.length := by
  induction found generalizing unseen with
  | nil => simp [takeUnseen]
  | cons head rest ih =>
    obtain ⟨d, reason⟩ := head
    by_cases hmem : d.id ∈ unseen
    · have hless : (unseen.filter (· ≠ d.id)).length < unseen.length :=
        List.length_filter_lt_length_iff_exists.2 ⟨d.id, hmem, by simp⟩
      have := ih (unseen.filter (· ≠ d.id))
      simp only [takeUnseen, hmem, if_true, List.length_cons]
      omega
    · simpa [takeUnseen, hmem] using ih unseen

/-- Collects what is related to the declarations on the stack, and to what is found. -/
def collect (index : Index) (unseen : List DeclarationId)
    (found : List (Declaration × ChangeReason)) :
    List Declaration → Except Error (List (Declaration × ChangeReason))
  | [] => .ok found
  | d :: stack =>
    match index.related d with
    | .error e => .error e
    | .ok related =>
      let fresh := takeUnseen unseen related
      index.collect fresh.2 (found ++ fresh.1)
        ((fresh.1.map Prod.fst).reverse ++ stack)
termination_by stack => 2 * unseen.length + stack.length
decreasing_by
  have := takeUnseen_length unseen related
  simp only [List.length_append, List.length_reverse, List.length_map, List.length_cons]
  omega

/-- The target and all declarations whose parameters change with it (`affected_declarations`). -/
def affected (index : Index) (target : Declaration) :
    Except Error (List (Declaration × ChangeReason)) :=
  index.collect ((index.declarations.map Declaration.id).filter (· ≠ target.id))
    [(target, .direct)] [target]

/-- The signatures that change with a target, each followed by the uses of the declaration
(`usage_sites`). -/
def changedPlaces (index : Index) (target : Declaration) : Except Error (List ChangedPlace) :=
  (index.affected target).map fun found => found.flatMap fun (d, reason) =>
    ⟨d, reason, none⟩ :: (index.referencesTo d.id).map fun r => ⟨d, .direct, some r⟩

end Index

end VbaRefactor
