import VbaRefactor.Proofs.ModuleOrder
import VbaRefactor.Proofs.Syntax.Agreement
import VbaRefactor.Proofs.Syntax.Separation

/-!
# Scoping

What a name without qualifier is bound to has that name, no local of the member hides it, and it
stands in the same module. A name that the module does not declare is bound to what the one standard
module shows that has it.
-/

namespace VbaRefactor

open List Outline

/-- Other modules see the declaration: it is a member that is not private, or a variable or constant
with a modifier that shows it. -/
def Declaration.IsShown (d : Declaration) : Prop :=
  (d.kind.isMember = true ∧ d.access ≠ .private) ∨
    ((d.kind = .variable ∨ d.kind = .constant) ∧
      (d.access = .public ∨ d.access = .global ∨ d.access = .friend))

instance (d : Declaration) : Decidable d.IsShown := inferInstanceAs (Decidable (_ ∨ _))

namespace Scope

variable {scope : Scope} {m : ModuleName} {member : DeclarationId} {name : Text} {d : Declaration}

theorem isExported_iff : isExported d = true ↔ d.IsShown := by
  rw [isExported, Declaration.IsShown]
  cases d.kind <;> cases d.access <;> decide

end Scope

namespace Project

variable {sources : List Source} {found : List Outline} {o q : Outline}

/-! ## Modules -/

section

variable {d : Declaration} {m : ModuleName} (hfound : outlines 0 sources = .ok found)
  (hnames : (found.map source).Pairwise fun a b => ¬ a.id.Same b.id)

include hfound hnames

omit hfound in
theorem eq_of_same (ho : o ∈ found) (hq : q ∈ found) (h : o.source.id.Same q.source.id) : o = q := by
  exact eq_of_pairwise_not (fun _ _ hsame => hsame.symm) (pairwise_map.mp hnames) ho hq h

theorem eq_of_isModule {d e : Declaration} (hd : d ∈ found.flatMap declarations)
    (he : e ∈ found.flatMap declarations) (hdm : d.kind = .module ∧ d.module.Same m)
    (hem : e.kind = .module ∧ e.module.Same m) : d = e := by
  obtain ⟨o, ho, hdo⟩ := mem_flatMap.mp hd
  obtain ⟨q, hq, heq⟩ := mem_flatMap.mp he
  have hoq : o.source.id.Same q.source.id := by
    rw [← (named_of_module hfound ho hdo hdm.1).1, ← (named_of_module hfound hq heq hem.1).1]
    exact hdm.2.trans hem.2.symm
  cases eq_of_same hnames ho hq hoq
  exact module_unique hfound ho hdo heq hdm.1 hem.1

theorem moduleScope?_eq (kinds : ModuleMap ModuleKind) (m : ModuleName) :
    Scope.moduleScope? ⟨found.flatMap declarations, kinds⟩ m =
      ((ofOutlines found).index.declarationOf? m).map Declaration.id := by
  rw [Scope.moduleScope?, Index.declarationOf?, ← head?_filter]
  congr 1
  have hall : ∀ d ∈ (found.flatMap declarations).filter fun d =>
      d.kind = .module && decide (d.module.Same m), d ∈ found.flatMap declarations ∧
        d.kind = .module ∧ d.module.Same m := by
    intro d hd
    simpa using mem_filter.mp hd
  -- Where all are the same, the first is the last.
  cases hlist : (found.flatMap declarations).filter fun d =>
      d.kind = .module && decide (d.module.Same m) with
  | nil => exact (congrArg List.head? hlist).symm
  | cons first rest =>
    rw [hlist] at hall
    obtain ⟨hfirst, hfirst'⟩ := hall first mem_cons_self
    obtain ⟨hlast, hlast'⟩ := hall _ (getLast_mem (cons_ne_nil first rest))
    rw [getLast?_eq_some_getLast (cons_ne_nil first rest),
      eq_of_isModule hfound hnames hlast hfirst hlast' hfirst']
    exact (congrArg List.head? hlist).symm

theorem mem_declaredIn_iff {kinds : ModuleMap ModuleKind} {name : Text} :
    d ∈ Scope.declaredIn ⟨found.flatMap declarations, kinds⟩ m name ↔
      d ∈ (ofOutlines found).index.moduleMembers m ∧ d.name.SameName name := by
  rw [Scope.declaredIn, moduleScope?_eq hfound hnames, Index.moduleMembers]
  cases (ofOutlines found).index.declarationOf? m with
  | none => simp
  | some module =>
    simp only [Option.map_some, Scope.inside, mem_filter, Bool.and_eq_true, decide_eq_true_eq,
      and_assoc]
    exact Iff.rfl

omit hnames in
/-- What stands at the level of a module belongs to it. -/
theorem module_of_mem_moduleMembers (h : d ∈ (ofOutlines found).index.moduleMembers m) :
    d.module.Same m := by
  rw [Index.moduleMembers] at h
  split at h
  · rename_i module hmodule
    obtain ⟨hd, hparent⟩ := mem_filter.mp h
    obtain ⟨o, ho, hdo⟩ := mem_flatMap.mp hd
    obtain ⟨q, hq, hmq⟩ := mem_flatMap.mp (mem_of_find?_eq_some hmodule)
    have hsame : module.kind = .module ∧ module.module.Same m := by
      simpa using find?_some hmodule
    -- The module and what stands in it have numbers of one outline.
    have hread := read_of_mem hfound ho
    have hhas := (closed_of_read hread).parents d hdo module.id (by simpa using hparent)
    cases eq_of_has hfound ho hq hhas (has_of_mem_declarations hfound hq hmq)
    obtain ⟨i, hi⟩ := mem_iff_getElem?.mp hdo
    rw [((readFrom_of_read hread).declared i d hi).2, ← (named_of_module hfound ho hmq hsame.1).1]
    exact hsame.2
  · cases h

omit hfound in
theorem mem_kinds_iff {kind : ModuleKind} :
    (m, kind) ∈ ModuleMap.ofList (found.map fun o => (o.source.id, o.source.kind)) ↔
      ∃ s ∈ found.map source, s.id = m ∧ s.kind = kind := by
  have hpairs : (found.map fun o => (o.source.id, o.source.kind)).Pairwise
      fun a b => ¬ a.1.Same b.1 := by
    rw [pairwise_map] at hnames ⊢
    exact hnames
  rw [ModuleMap.mem_ofList_iff hpairs]
  simp

end

/-! ## References -/

theorem usage_of_bind? {place : Place} {withs : WithStack} {m : Mention} {r : Reference}
    (h : place.bind? withs m = some r) (hresult : r.usage ≠ .returnValue)
    (hraise : r.usage ≠ .raiseEvent) :
    place.isReturnValue m = false ∧ ∀ arguments?, m.use ≠ .raiseEvent arguments? := by
  rcases Place.bind?_cases h with ⟨-, rfl⟩ | ⟨hnot, d, -, usage, arguments?, rfl, hmakes⟩
  · exact absurd rfl hresult
  · refine ⟨hnot, ?_⟩
    intro _ huse
    rw [huse] at hmakes
    cases hmakes
    exact hraise rfl

/-- The scope in which the bodies of outlines are bound. -/
abbrev scopeOf (found : List Outline) : Scope :=
  ⟨found.flatMap Outline.declarations, .ofList (found.map fun o => (o.source.id, o.source.kind))⟩

/-- A name without qualifier that stands in a member of a module can mean the declaration. -/
structure InScope (sources : List Source) (index : Index) (s : Source) (member : DeclarationId)
    (name : Text) (d : Declaration) : Prop where
  named : d.name.SameName name
  /-- The name stands in a member of the module that has no local or parameter of that name. -/
  owner : ∃ owner, index.get? member = some owner ∧ owner.module = s.id ∧ owner.kind.isMember = true
  free : ¬ index.IsLocal member name
  /-- The declaration stands at the level of the module, or else it is the one of that name that the
  standard modules show. -/
  found : d ∈ index.moduleMembers s.id ∨
    ((∀ e ∈ index.moduleMembers s.id, ¬ e.name.SameName name) ∧
      ∃ home ∈ sources, home.kind = .standard ∧ d ∈ index.moduleMembers home.id ∧ d.IsShown ∧
        ∀ other ∈ sources, other.kind = .standard → ∀ e ∈ index.moduleMembers other.id,
          e.name.SameName name → e.IsShown → other = home)

/-- What a member can mean by a name is in scope there. -/
theorem inScope_of_mem_visible (hfound : outlines 0 sources = .ok found)
    (hnames : (found.map source).Pairwise fun a b => ¬ a.id.Same b.id) (ho : o ∈ found)
    {body : MemberStatement} (hbody : body ∈ o.bodies) {name : Text} {d : Declaration}
    (h : d ∈ (scopeOf found).visible o.source.id body.member name) :
    InScope (found.map source) (ofOutlines found).index o.source body.member name d := by
  have hread := read_of_mem hfound ho
  obtain ⟨owner, howner, hid, hkind⟩ := exists_member_of_mem_bodies hread hbody
  obtain ⟨i, hi⟩ := mem_iff_getElem?.mp howner
  have hdeclared := (readFrom_of_read hread).declared i owner hi
  obtain ⟨hlocal, hplace⟩ := Scope.mem_visible h
  refine ⟨(Scope.mem_of_mem_visible h).2.2, ⟨owner, ?_, hdeclared.2, hkind⟩, ?_, ?_⟩
  · have hhas := has_of_mem_declarations hfound ho howner
    rw [← hid]
    refine (getElem?_block hfound ho hhas).trans ?_
    rw [hdeclared.1, Nat.add_sub_cancel_left, hi]
  · intro hisLocal
    have hsome : ((scopeOf found).typeOfLocal? body.member name).isSome = true :=
      (Scope.isSome_typeOfLocal?_iff rfl).mpr hisLocal
    rw [hlocal] at hsome
    cases hsome
  · rcases hplace with hhere | ⟨hnone, hshown⟩
    · exact .inl ((mem_declaredIn_iff hfound hnames).mp hhere).1
    obtain ⟨hshown, hall⟩ := Scope.mem_exported hshown
    obtain ⟨m, hm, hthere, hshown⟩ := Scope.mem_shown_iff.mp hshown
    obtain ⟨home, hhome, rfl, hkind⟩ := (mem_kinds_iff hnames).mp hm
    obtain ⟨hmember, -⟩ := (mem_declaredIn_iff hfound hnames).mp hthere
    refine .inr ⟨?_, home, hhome, hkind, hmember, Scope.isExported_iff.mp hshown, ?_⟩
    · intro e he hname
      have hin : e ∈ (scopeOf found).declaredIn o.source.id name :=
        (mem_declaredIn_iff hfound hnames).mpr ⟨he, hname⟩
      rw [hnone] at hin
      cases hin
    · intro other hother hstandard e he hname hshown
      have hsame := hall e (Scope.mem_shown_iff.mpr
        ⟨other.id, (mem_kinds_iff hnames).mpr ⟨other, hother, rfl, hstandard⟩,
          (mem_declaredIn_iff hfound hnames).mpr ⟨he, hname⟩, Scope.isExported_iff.mpr hshown⟩)
      have hotherSame := module_of_mem_moduleMembers hfound he
      have hhomeSame := module_of_mem_moduleMembers hfound hmember
      exact Source.eq_of_same hnames hother hhome (hotherSame.symm.trans (hsame.trans hhomeSame))

end Project

end VbaRefactor
