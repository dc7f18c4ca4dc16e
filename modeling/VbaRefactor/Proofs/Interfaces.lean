import VbaRefactor.Proofs.Readings

/-!
# Interfaces and what implements them

A member of an interface is looked up in the modules that implement it, and the member of such a module
is looked up in its interfaces. Both ways lead to the same pairs: two members of one kind, the one named
after the interface and the other, in a module that says it implements that interface.
-/

namespace VbaRefactor

open List Text Outline ModuleMap Index

theorem Text.fold_fold (t : Text) : t.fold.fold = t.fold := by
  unfold fold
  rw [map_map]
  apply map_congr_left
  intro c _
  unfold Function.comp Char.toLower
  split
  · rename_i hupper
    rw [dif_neg]
    rintro ⟨-, hle⟩
    simp only [ge_iff_le, UInt32.le_iff_toNat_le, UInt32.toNat_add] at hupper hle
    simp at hupper hle
    omega
  · rfl

namespace Outline

variable {o o' : Outline} {s : Statement} {block block' : Construct}

def MembersAtModuleLevel (o : Outline) : Prop :=
  ∀ x ∈ o.shape, x.1.isMember = true → x.2 = some o.base

theorem MembersAtModuleLevel.declare (h : o.MembersAtModuleLevel) {entries : List Entry}
    (hentries : ∀ e ∈ entries, e.kind.isMember = true → e.parent = o.base) :
    (o.declare entries).MembersAtModuleLevel := by
  unfold MembersAtModuleLevel
  rw [shape_declare, base_declare]
  intro x hx hmember
  rcases mem_append.mp hx with hx | hx
  · exact h x hx hmember
  · obtain ⟨e, he, rfl⟩ := mem_map.mp hx
    exact congrArg some (hentries e he hmember)

theorem MembersAtModuleLevel.effect (h : o.MembersAtModuleLevel)
    (heffect : Effect o s block o' block') : o'.MembersAtModuleLevel := by
  have hplain {parent : DeclarationId} {entries : List Entry} (hentries : Plain parent entries) :
      (o.declare entries).MembersAtModuleLevel :=
    h.declare fun e he hmember => by simp [isMember_of_plain hentries e he] at hmember
  have hmember (e : Entry) (he : e.parent = o.base) : (o.declare [e]).MembersAtModuleLevel :=
    h.declare fun _ hx _ => by rw [mem_singleton.mp hx, he]
  cases heffect with
  | names _ _ hentries => exact hplain hentries
  | implements | closeRecord => exact h
  | fields hentries => exact hplain hentries
  | bodyless | openMember | openRecord => exact hmember _ rfl
  | keep hentries => exact hplain hentries
  | closeMember =>
    unfold MembersAtModuleLevel
    rw [shape_endMember]
    exact h
  | line hentries =>
    exact h.declare fun e he hmember => by simp [(hentries e he).2, DeclarationKind.isMember] at hmember

theorem parent?_of_isMember {base : DeclarationId} {source : Source} (h : read base source = .ok o)
    {d : Declaration} (hd : d ∈ o.declarations) (hmember : d.kind.isMember = true) :
    d.parent? = some o.base := by
  obtain ⟨-, -, hall⟩ := keeps_of_read (P := fun _ o _ => o.MembersAtModuleLevel)
    (fun h hstep => h.effect (effect_of_step hstep))
    (by simp [MembersAtModuleLevel, shape, start, DeclarationKind.isMember]) h
  exact hall _ (mem_map_of_mem hd) hmember

end Outline

namespace Index

theorem afterStart?_eq_some_iff {s t rest : Text} : afterStart? s t = some rest ↔ t = s ++ rest := by
  fun_induction afterStart? s t with
  | case1 t => simp
  | case2 => simp
  | case3 a s t ih => simp [ih]
  | case4 a s b t hne => simp [Ne.symm hne]

/-- A member of a module and a member of one of its interfaces of the same kind, of which the former
has the name of the interface in front of its own. -/
def Implements (index : Index) (d m : Declaration) : Prop :=
  m.kind.isMember = true ∧ d.kind = m.kind ∧
    d.name.SameName (m.module.component ++ '_' :: m.name) ∧
    ∃ interface ∈ index.interfacesOf d.module,
      (unqualifiedType interface).SameName m.module.component

/-- A name in front of a member's name is parted from it again, up to the case of letters. -/
theorem afterStart?_fold_iff {bare name rest : Text} :
    (∃ found, afterStart? (bare.fold ++ ['_']) name.fold = some found ∧ rest.SameName found) ↔
      name.SameName (bare ++ '_' :: rest) := by
  have hwhole : (bare ++ '_' :: rest).fold = bare.fold ++ ['_'] ++ rest.fold := by simp [fold]
  unfold SameName
  simp only [afterStart?_eq_some_iff, hwhole]
  constructor
  · rintro ⟨found, hname, hrest⟩
    -- what is left of a folded name is folded
    have hparts : (bare.fold ++ ['_'] ++ found).fold = bare.fold.fold ++ ['_'] ++ found.fold := by
      simp [fold]
    rw [← fold_fold name, hname, hparts, fold_fold, hrest]
  · intro hname
    exact ⟨rest.fold, hname, (fold_fold rest).symm⟩

end Index

namespace Project

section

variable {found : List Outline} {d m : Declaration} {name : Text}
  (hfound : outlines 0 (found.map source) = .ok found)
  (hnames : DistinctNames (found.map source))

include hfound

theorem module_of_mem_declarations (hd : d ∈ (ofOutlines found).index.declarations) :
    ∃ o ∈ found, d ∈ o.declarations ∧ d.module = o.source.id := by
  obtain ⟨o, ho, hmem⟩ := mem_flatMap.mp hd
  obtain ⟨i, hi⟩ := mem_iff_getElem?.mp hmem
  exact ⟨o, ho, hmem, ((readFrom_of_read (read_of_mem hfound ho)).declared i d hi).2⟩

theorem moduleNamed?_eq_some {e : Declaration}
    (h : (ofOutlines found).index.moduleNamed? name = some e) :
    ∃ o ∈ found, e.module = o.source.id ∧ o.source.id.component.SameName name := by
  have hkind : e.kind = .module := by simpa using find?_some h
  obtain ⟨he, hname⟩ := mem_filter.mp (mem_of_find?_eq_some h)
  obtain ⟨o, ho, hmem⟩ := mem_flatMap.mp he
  obtain ⟨hmodule, hcomponent⟩ := named_of_module hfound ho hmem hkind
  rw [hcomponent, decide_eq_true_eq] at hname
  exact ⟨o, ho, hmodule, hname⟩

include hnames

theorem mem_index_declaredIn (hd : d ∈ (ofOutlines found).index.declarations)
    (hmember : d.kind.isMember = true) {module : ModuleName} :
    d ∈ (ofOutlines found).index.declaredIn module name ↔
      d.name.SameName name ∧ d.module.Same module := by
  have hmodules : (found.map source).Pairwise fun a b => ¬ a.id.Same b.id := by
    refine List.Pairwise.imp ?_ hnames
    intro a b hne hsame
    exact hne (congrArg Prod.snd hsame)
  have hlevel (hsame : d.module.Same module) :
      d.parent? = ((ofOutlines found).index.declarationOf? module).map Declaration.id := by
    obtain ⟨o, ho, hmem, hmodule⟩ := module_of_mem_declarations hfound hd
    rw [hmodule] at hsame
    obtain ⟨e, he, hid⟩ := declarationOf?_eq hfound hmodules ho hsame
    rw [parent?_of_isMember (read_of_mem hfound ho) hmem hmember, he, Option.map_some, hid]
  simp only [declaredIn, find, mem_filter, Bool.and_eq_true, decide_eq_true_eq]
  constructor
  · rintro ⟨⟨-, hname⟩, hsame, -⟩
    exact ⟨hname, hsame⟩
  · rintro ⟨hname, hsame⟩
    exact ⟨⟨hd, hname⟩, hsame, hlevel hsame⟩

/-- The module with the name of the module that a declaration stands in is that one. -/
theorem exists_moduleNamed? (hd : d ∈ (ofOutlines found).index.declarations)
    (hname : d.module.component.SameName name) :
    ∃ e, (ofOutlines found).index.moduleNamed? name = some e ∧ e.module = d.module := by
  obtain ⟨o, ho, -, hmodule⟩ := module_of_mem_declarations hfound hd
  rw [hmodule] at hname ⊢
  cases hfind : (ofOutlines found).index.moduleNamed? name with
  | some e =>
    obtain ⟨q, hq, hmodule', hname'⟩ := moduleNamed?_eq_some hfound hfind
    cases eq_of_sameName hnames hq ho (hname'.trans hname.symm)
    exact ⟨e, rfl, hmodule'⟩
  | none =>
    obtain ⟨e, rest, hdeclarations, hkind, -⟩ := (closed_of_read (read_of_mem hfound ho)).module
    have he : e ∈ o.declarations := by simp [hdeclarations]
    have hsame : e.name.SameName name := by rwa [(named_of_module hfound ho he hkind).2]
    have hmem : e ∈ (ofOutlines found).index.find name :=
      mem_filter.mpr ⟨mem_flatMap.mpr ⟨o, ho, he⟩, by simpa using hsame⟩
    have hnone := find?_eq_none.mp hfind e hmem
    simp [hkind] at hnone

end

section

variable {sources : List Source} {p : Project} {d m : Declaration} (h : read sources = .ok p)
  (hnames : DistinctNames sources)
  (hproject : ∀ a ∈ sources, ∀ b ∈ sources, a.id.project.SameName b.id.project)
  (hd : d ∈ p.index.declarations) (hm : m ∈ p.index.declarations)

include h hnames hd hm

include hproject in
theorem mem_implementationsOf_iff : d ∈ p.index.implementationsOf m.id ↔ p.index.Implements d m := by
  unfold implementationsOf Implements
  rw [(numbered_of_read h).get?_id hm]
  obtain ⟨found, hfound, rfl⟩ := exists_outlines_of_read h
  obtain ⟨rfl, -, -⟩ := outlines_readFrom hfound
  have hsorted : Sorted (ofOutlines found).index.interfaces := sorted_ofList _
  by_cases hmember : m.kind.isMember = true
  · simp only [hmember, if_true, true_and, mem_filter, mem_flatMap, decide_eq_true_eq,
      implementing, mem_map, Bool.and_eq_true, any_eq_true]
    constructor
    · rintro ⟨⟨_, ⟨⟨k, names⟩, ⟨hk, -, hinterface⟩, rfl⟩, hdeclared⟩, hkind⟩
      obtain ⟨hname, hsame⟩ := (mem_index_declaredIn hfound hnames hd (hkind ▸ hmember)).mp hdeclared
      refine ⟨hkind, hname, ?_⟩
      rwa [interfacesOf, get?_congr _ hsame, get?_of_mem hsorted hk]
    · rintro ⟨hkind, hname, interface, hinterface, hsame⟩
      rw [interfacesOf] at hinterface
      cases hget : (ofOutlines found).index.interfaces.get? d.module with
      | none => simp [hget] at hinterface
      | some names =>
        obtain ⟨k, hk, hmodule⟩ := exists_mem_of_get? hget
        refine ⟨⟨k, ⟨(k, names), ⟨hk, ?_, interface, ?_, hsame⟩, rfl⟩, ?_⟩, hkind⟩
        · obtain ⟨o, ho, -, hdo⟩ := module_of_mem_declarations hfound hd
          obtain ⟨q, hq, -, hmq⟩ := module_of_mem_declarations hfound hm
          rw [hdo] at hmodule
          rw [hmq]
          exact (congrArg Prod.fst hmodule).trans
            (hproject _ (mem_map_of_mem ho) _ (mem_map_of_mem hq))
        · rwa [hget] at hinterface
        · exact (mem_index_declaredIn hfound hnames hd (hkind ▸ hmember)).mpr ⟨hname, hmodule.symm⟩
  · simp [hmember]

theorem mem_implementedBy_iff : m ∈ p.index.implementedBy d.id ↔ p.index.Implements d m := by
  unfold implementedBy Implements
  rw [(numbered_of_read h).get?_id hd]
  obtain ⟨found, hfound, rfl⟩ := exists_outlines_of_read h
  obtain ⟨rfl, -, -⟩ := outlines_readFrom hfound
  by_cases hmember : d.kind.isMember = true
  · simp only [hmember, if_true, mem_flatMap]
    constructor
    · rintro ⟨interface, hinterface, hmem⟩
      split at hmem
      · rename_i rest module hrest hmodule
        obtain ⟨hdeclared, hkind⟩ := mem_filter.mp hmem
        have hkind : m.kind = d.kind := by simpa using hkind
        obtain ⟨hname, hsame⟩ :=
          (mem_index_declaredIn hfound hnames hm (hkind ▸ hmember)).mp hdeclared
        obtain ⟨o, -, hmodule, hcomponent⟩ := moduleNamed?_eq_some hfound hmodule
        have hbare : (unqualifiedType interface).SameName m.module.component := by
          rw [hmodule] at hsame
          exact hcomponent.symm.trans (congrArg Prod.snd hsame).symm
        refine ⟨hkind ▸ hmember, hkind.symm, ?_, interface, hinterface, hbare⟩
        have hparts := afterStart?_fold_iff.mp ⟨rest, hrest, hname⟩
        simp only [SameName, fold, map_append] at hparts hbare ⊢
        rw [hparts, hbare]
      · cases hmem
    · rintro ⟨hm', hkind, hname, interface, hinterface, hbare⟩
      refine ⟨interface, hinterface, ?_⟩
      obtain ⟨e, he, hmodule⟩ := exists_moduleNamed? hfound hnames hm hbare.symm
      have hparts : d.name.SameName (unqualifiedType interface ++ '_' :: m.name) := by
        simp only [SameName, fold, map_append] at hname hbare ⊢
        rw [hname, hbare]
      obtain ⟨rest, hrest, hsame⟩ := afterStart?_fold_iff.mpr hparts
      simp only [hrest, he, mem_filter, decide_eq_true_eq]
      refine ⟨(mem_index_declaredIn hfound hnames hm hm').mpr ⟨hsame, ?_⟩, hkind.symm⟩
      rw [hmodule]
      exact .refl _
  · simp only [hmember, Bool.false_eq_true, if_false, not_mem_nil, false_iff]
    rintro ⟨hm', hkind, -⟩
    exact hmember (hkind ▸ hm')

include hproject in
/-- Looking for what implements a member and for what a member implements are inverse to each other. -/
theorem implementations_inverse :
    d ∈ p.index.implementationsOf m.id ↔ m ∈ p.index.implementedBy d.id :=
  (mem_implementationsOf_iff h hnames hproject hd hm).trans (mem_implementedBy_iff h hnames hd hm).symm

end

/-- The interface is named with its project and in another case, and there is a point of division for
the name in each underscore. -/
theorem implementations_inverse_qualified :
    let interface : Source := ⟨⟨"P", "I_Run"⟩, .classModule, "Public Sub Go_On(n)\nEnd Sub\n".toList⟩
    let runner : Source := ⟨⟨"P", "Runner"⟩, .classModule,
      "Implements P.i_run\nPrivate Sub I_RUN_go_on(n)\nEnd Sub\n".toList⟩
    ∃ p, read [interface, runner] = .ok p ∧ ∃ m d, p.index.get? 1 = some m ∧ p.index.get? 3 = some d ∧
      d ∈ p.index.implementationsOf m.id ∧ m ∈ p.index.implementedBy d.id := by
  intro interface runner
  have hrun : ∃ p ∈ (read [interface, runner]).toOption, ∃ m ∈ p.index.get? 1, ∃ d ∈ p.index.get? 3,
      d ∈ p.index.implementationsOf m.id := by
    decide +kernel
  obtain ⟨p, hp, m, hm, d, hd, himplements⟩ := hrun
  have hread := eq_ok_of_mem_toOption hp
  refine ⟨p, hread, m, d, hm, hd, himplements, ?_⟩
  exact (implementations_inverse hread (by decide) (by decide) (List.mem_of_getElem? hd)
    (List.mem_of_getElem? hm)).mp himplements

end Project

end VbaRefactor
