import VbaRefactor.Proofs.Binding
import VbaRefactor.Proofs.Syntax.Renumber

/-!
# Binding does not look at numbers

Two scopes with the same declarations under different numbers bind every name to the same declaration:
each way to look something up gives the same in both, up to the numbers.
-/

namespace VbaRefactor

open List

variable {f : DeclarationId → DeclarationId} {scope scope' : Scope}

/-- The reference with other numbers. -/
def Reference.renumber (f : DeclarationId → DeclarationId) (r : Reference) : Reference :=
  { r with declaration := f r.declaration, member := f r.member }

namespace Scope

/-- The second scope holds the declarations of the first under other numbers. -/
structure Renumbers (f : DeclarationId → DeclarationId) (scope scope' : Scope) : Prop where
  kinds : scope'.kinds.Perm scope.kinds
  keys : scope.kinds.Pairwise fun a b => ¬ a.1.Same b.1
  owned : ∀ m name, ∀ d ∈ scope.declaredIn m name, d.module.Same m
  placed : ∀ d ∈ scope.declarations, d.id < scope.declarations.length
  injective : ∀ a < scope.declarations.length, ∀ b < scope.declarations.length, f a = f b → a = b
  get? : ∀ id < scope.declarations.length,
    scope'.declarations[f id]? = scope.declarations[id]?.map (.renumber f)
  inside : ∀ id < scope.declarations.length, ∀ name,
    scope'.inside (f id) name = (scope.inside id name).map (.renumber f)
  moduleScope? : ∀ m, scope'.moduleScope? m = (scope.moduleScope? m).map f
  moduleNamed? : ∀ type, scope'.moduleNamed? type = scope.moduleNamed? type

namespace Renumbers

variable {member : DeclarationId}

section

variable (h : scope.Renumbers f scope')

include h

theorem declaredIn (m : ModuleName) (name : Text) :
    scope'.declaredIn m name = (scope.declaredIn m name).map (.renumber f) := by
  rw [Scope.declaredIn, Scope.declaredIn, h.moduleScope?]
  cases hscope : scope.moduleScope? m with
  | none => rfl
  | some id =>
    obtain ⟨d, hd, rfl⟩ := Option.map_eq_some_iff.mp hscope
    exact h.inside d.id (h.placed d (mem_filter.mp (mem_of_getLast? hd)).1) name

theorem typeOfLocal? (hmember : member < scope.declarations.length) (name : Text) :
    scope'.typeOfLocal? (f member) name = scope.typeOfLocal? member name := by
  rw [Scope.typeOfLocal?, Scope.typeOfLocal?, h.inside member hmember, h.get? member hmember]
  cases scope.inside member name with
  | nil => cases scope.declarations[member]? <;> rfl
  | cons d rest => rfl

theorem exported (name : Text) :
    scope'.exported name = (scope.exported name).map (.renumber f) := by
  rw [← exported_of_perm h.kinds h.keys (h.owned · name)]
  have hshown : scope'.shown name =
      (shown { scope with kinds := scope'.kinds } name).map (.renumber f) := by
    rw [shown, shown, map_flatMap]
    congr 1
    funext entry
    simp only [h.declaredIn]
    show _ = ((if entry.2 = .standard then (scope.declaredIn entry.1 name).filter isExported else [])).map _
    split
    · rw [filter_map]
      rfl
    · rfl
  cases hfound : shown { scope with kinds := scope'.kinds } name with
  | nil =>
    rw [exported_of_nil hfound, exported_of_nil (by rw [hshown, hfound]; rfl)]
    rfl
  | cons d rest =>
    rw [hfound] at hshown
    have hall : ((rest.map (Declaration.renumber f)).all fun e =>
        decide (e.module.Same (d.renumber f).module)) =
        rest.all fun e => decide (e.module.Same d.module) := by
      rw [all_map]
      rfl
    rw [exported_of_cons hfound, exported_of_cons hshown, hall]
    split <;> rfl

theorem visible (hmember : member < scope.declarations.length) (m : ModuleName) (name : Text) :
    scope'.visible m (f member) name = (scope.visible m member name).map (.renumber f) := by
  rw [Scope.visible, Scope.visible, h.typeOfLocal? hmember, h.declaredIn]
  split
  · rfl
  · cases scope.declaredIn m name with
    | nil => exact h.exported name
    | cons d rest => rfl

theorem objectType? (d : Declaration) : scope'.objectType? (d.renumber f) = scope.objectType? d := by
  rw [Scope.objectType?, Scope.objectType?, Declaration.renumber]
  congr 1
  funext type
  exact h.moduleNamed? type

theorem findSome?_objectType? (found : List Declaration) :
    (found.map (.renumber f)).findSome? scope'.objectType? = found.findSome? scope.objectType? := by
  rw [findSome?_map]
  congr 1
  funext d
  exact h.objectType? d

end

end Renumbers

end Scope

theorem meant?_renumber (f : DeclarationId → DeclarationId) (candidates : List Declaration) (use : Use) :
    meant? (candidates.map (.renumber f)) use = (meant? candidates use).map (.renumber f) := by
  unfold meant?
  rw [all_map]
  by_cases hall : (candidates.all fun d => d.kind.isProperty) = true
  · rw [if_pos hall, if_pos (by exact hall), find?_map, find?_map, head?_map,
      Option.map_or, Option.map_or]
    rfl
  · rw [if_neg hall, if_neg (by exact hall)]
    cases candidates with
    | nil => rfl
    | cons d rest => cases rest <;> rfl

namespace Place

/-- The place in a scope with other numbers. -/
def renumber (f : DeclarationId → DeclarationId) (scope' : Scope) (p : Place) : Place :=
  ⟨scope', p.source, f p.member, p.tokens⟩

variable {p : Place}

section

variable (h : p.scope.Renumbers f scope') (hmember : p.member < p.scope.declarations.length)

include h

theorem chainType?_renumber (m : ModuleName) (names : List Nat) :
    (p.renumber f scope').chainType? m names = p.chainType? m names := by
  induction names generalizing m with
  | nil => rfl
  | cons i rest ih =>
    simp only [chainType?, renumber, h.declaredIn, h.findSome?_objectType?]
    cases (p.scope.declaredIn m (p.tokens.nameAt i)).findSome? p.scope.objectType? with
    | none => rfl
    | some next => exact ih next

include hmember

theorem firstType?_renumber (name : Text) :
    (p.renumber f scope').firstType? name = p.firstType? name := by
  have hnamed : scope'.moduleNamed? = p.scope.moduleNamed? := funext h.moduleNamed?
  simp only [firstType?, renumber, h.typeOfLocal? hmember, h.visible hmember, h.findSome?_objectType?,
    hnamed]

theorem qualifiedObject?_renumber (withs : WithStack) (q : Qualifier) :
    (p.renumber f scope').qualifiedObject? withs q = p.qualifiedObject? withs q := by
  simp only [qualifiedObject?, chainType?_renumber h, firstType?_renumber h hmember]
  rfl

theorem candidates_renumber (withs : WithStack) (m : Mention) :
    (p.renumber f scope').candidates withs m = (p.candidates withs m).map (.renumber f) := by
  simp only [candidates, qualifiedObject?_renumber h hmember]
  simp only [renumber, h.declaredIn, h.visible hmember]
  split
  · split
    · rw [filter_map]
      rfl
    · rfl
  · split <;> rfl

theorem isReturnValue_renumber (m : Mention) :
    (p.renumber f scope').isReturnValue m = p.isReturnValue m := by
  simp only [isReturnValue, renumber, h.get? p.member hmember]
  cases p.scope.declarations[p.member]? with
  | none => cases m.use <;> rfl
  | some owner => cases m.use <;> rfl

theorem bind?_renumber (withs : WithStack) (m : Mention) :
    (p.renumber f scope').bind? withs m = (p.bind? withs m).map (.renumber f) := by
  rw [bind?, bind?, isReturnValue_renumber h hmember, candidates_renumber h hmember, meant?_renumber]
  split
  · rfl
  cases meant? (p.candidates withs m) m.use with
  | none => rfl
  | some d =>
    simp only [Option.map_some, Option.some.injEq]
    cases m.use with
    | read =>
      have hkind : (d.renumber f).kind = d.kind := rfl
      simp only [hkind]
      by_cases hmember : d.kind.isMember = true
      · rw [if_pos hmember, if_pos hmember]
        rfl
      · rw [if_neg hmember, if_neg hmember]
        rfl
    | _ => rfl

theorem perform_renumber (withs : WithStack) (acts : List Act) :
    (p.renumber f scope').perform withs acts =
      ((p.perform withs acts).1.map (.renumber f), (p.perform withs acts).2) := by
  induction acts generalizing withs with
  | nil => rfl
  | cons act rest ih =>
    cases act with
    | mention m =>
      simp only [perform, ih, bind?_renumber h hmember, map_append]
      cases p.bind? withs m <;> rfl
    | enterNew type? =>
      have hnamed : scope'.moduleNamed? = p.scope.moduleNamed? := funext h.moduleNamed?
      rw [perform, ih, perform]
      simp only [renumber, hnamed]
    | enterWith chain? =>
      have hobject : (p.renumber f scope').qualifiedObject? withs = p.qualifiedObject? withs :=
        funext (qualifiedObject?_renumber h hmember withs)
      simp only [perform, ih, hobject]
    | leaveWith => exact ih withs.tail

end

end Place

/-- The references of a body are the same under other numbers. -/
theorem Scope.Renumbers.references (h : scope.Renumbers f scope') (source : Source)
    {current? : Option DeclarationId}
    (hcurrent : ∀ current ∈ current?, current < scope.declarations.length) (withs : WithStack)
    {bodies : List MemberStatement}
    (hbodies : ∀ body ∈ bodies, body.member < scope.declarations.length) :
    scope'.references source (current?.map f) withs (bodies.map (.renumber f)) =
      (scope.references source current? withs bodies).map (.renumber f) := by
  induction bodies generalizing current? withs with
  | nil => rfl
  | cons body rest ih =>
    obtain ⟨hbody, hrest⟩ := forall_mem_cons.mp hbodies
    have hsame : current?.map f = some (f body.member) ↔ current? = some body.member := by
      cases current? with
      | none => simp
      | some current =>
        simp only [Option.map_some, Option.some.injEq]
        exact ⟨h.injective current (hcurrent current rfl) body.member hbody, congrArg f⟩
    have hperform := Place.perform_renumber (p := ⟨scope, source, body.member, body.tokens⟩) h hbody
    simp only [Place.renumber] at hperform
    simp only [map_cons, Scope.references, MemberStatement.renumber, hsame, hperform, map_append]
    congr 1
    have hnext : ∀ current ∈ some body.member, current < scope.declarations.length := by
      rintro current ⟨⟩
      exact hbody
    exact ih hnext _ hrest

end VbaRefactor
