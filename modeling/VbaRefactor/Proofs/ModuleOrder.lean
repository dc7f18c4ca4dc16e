import VbaRefactor.Proofs.Renumbering
import VbaRefactor.Proofs.Syntax.Scopes

/-!
# The order of the modules

Modules that are read together can come in any order. The declarations of a module keep their order
and are numbered from another number on, so that one reading is the other with its numbers moved
block by block. All that is left to see is that every look-up finds the same, since a name that two
modules could both answer to is answered by the one that comes last.
-/

namespace VbaRefactor

open List Outline

variable {id : DeclarationId} {f : DeclarationId → DeclarationId} {sources sources' : List Source}
  {o' : Outline}

namespace Outline

/-- What two readings of one source have to do with each other: the numbers of the second are those
of the first, counted from the other base. -/
theorem eq_renumber_of_read {o : Outline} (h : read o.base o.source = .ok o)
    (h' : read o'.base o'.source = .ok o') (hsource : o'.source = o.source)
    (hf : ∀ id, o.Has id → f id = id - o.base + o'.base) :
    o'.declarations = o.declarations.map (.renumber f) ∧
      o'.bodies = o.bodies.map (.renumber f) := by
  have hread := read_add 0 o.base o.source
  have hread' := read_add 0 o'.base o'.source
  rw [Nat.zero_add, h] at hread
  rw [Nat.zero_add, h', hsource] at hread'
  cases hfirst : read 0 o.source with
  | error fault =>
    rw [hfirst] at hread
    cases hread
  | ok first =>
    rw [hfirst, Except.map, Except.ok.injEq] at hread hread'
    have hclosed := closed_of_read hfirst
    have hnumbered := readFrom_of_read hfirst
    have hmoves : ∀ id, first.Has id → f (id + o.base) = id + o'.base := by
      intro id hid
      rw [hf (id + o.base) ?_, Nat.add_sub_cancel]
      have hnext : o.nextId = first.nextId + o.base := by rw [← nextId_shift, ← hread]
      refine ⟨Nat.le_add_left _ _, ?_⟩
      rw [hnext]
      exact Nat.add_lt_add_right hid.2 _
    have hdeclarations : o.declarations = first.declarations.map (.renumber (· + o.base)) :=
      congrArg declarations hread
    have hbodies : o.bodies = first.bodies.map (.renumber (· + o.base)) := congrArg bodies hread
    have hdeclarations' : o'.declarations = first.declarations.map (.renumber (· + o'.base)) :=
      congrArg declarations hread'
    have hbodies' : o'.bodies = first.bodies.map (.renumber (· + o'.base)) := congrArg bodies hread'
    rw [hdeclarations', hdeclarations, hbodies', hbodies, map_map, map_map]
    constructor
    · refine map_congr_left ?_
      intro d hd
      obtain ⟨i, hi⟩ := mem_iff_getElem?.mp hd
      have hid : first.Has d.id := by
        obtain ⟨hlt, -⟩ := List.getElem?_eq_some_iff.mp hi
        rw [(hnumbered.declared i d hi).1, Has, nextId, hnumbered.ofBase]
        exact ⟨Nat.le_add_right _ _, Nat.add_lt_add_left hlt _⟩
      have hparent : (d.parent?.map (· + o.base)).map f = d.parent?.map (· + o'.base) := by
        rw [Option.map_map]
        refine Option.map_congr ?_
        intro parent hmem
        exact hmoves parent (hclosed.parents d hd parent hmem)
      simp [Declaration.renumber, hmoves d.id hid, hparent]
    · refine map_congr_left ?_
      intro body hbody
      simp [MemberStatement.renumber, hmoves body.member (hclosed.members body hbody)]

end Outline

namespace Project

variable {found found' : List Outline} {o q : Outline}

/-! ## The blocks of a reading -/

/-- Every outline is the reading of its source from its own base, and the numbers of one outline are
below those of the next. -/
theorem blocks_of_outlines {base : DeclarationId} (h : outlines base sources = .ok found) :
    (∀ o ∈ found, base ≤ o.base ∧ Outline.read o.base o.source = .ok o) ∧
      found.Pairwise fun a b => a.nextId ≤ b.base := by
  induction sources generalizing base found with
  | nil =>
    cases h
    exact ⟨by simp, .nil⟩
  | cons source rest ih =>
    rw [outlines] at h
    split at h
    · cases h
    rename_i outline hread
    have hfrom := readFrom_of_read hread
    split at h
    · cases h
    rename_i more hmore
    cases h
    obtain ⟨hall, happart⟩ := ih hmore
    refine ⟨?_, pairwise_cons.mpr ⟨fun o ho => (hall o ho).1, happart⟩⟩
    intro o ho
    rcases mem_cons.mp ho with rfl | ho
    · refine ⟨Nat.le_of_eq hfrom.ofBase.symm, ?_⟩
      rwa [hfrom.ofBase, hfrom.ofSource]
    · have hnext : base ≤ outline.nextId := by
        rw [nextId, hfrom.ofBase]
        exact Nat.le_add_right _ _
      exact ⟨Nat.le_trans hnext (hall o ho).1, (hall o ho).2⟩

/-- Whether modules can be read together says nothing about their order: each is read on its own. -/
theorem exists_outlines_iff (base : DeclarationId) :
    (∃ found, outlines base sources = .ok found) ↔ ∀ s ∈ sources, ∃ o, Outline.read 0 s = .ok o := by
  induction sources generalizing base with
  | nil => exact ⟨fun _ => by simp, fun _ => ⟨[], rfl⟩⟩
  | cons source rest ih =>
    have hread := read_add 0 base source
    rw [Nat.zero_add] at hread
    rw [forall_mem_cons, outlines, hread]
    cases Outline.read 0 source with
    | error fault => simp [Except.map]
    | ok first =>
      rw [← ih (first.shift base).nextId]
      simp only [Except.map]
      cases outlines (first.shift base).nextId rest <;> simp

section

variable {d : Declaration} (hfound : outlines 0 sources = .ok found)

include hfound

theorem read_of_mem (ho : o ∈ found) : Outline.read o.base o.source = .ok o :=
  ((blocks_of_outlines hfound).1 o ho).2

theorem id_of_getElem? (hd : (found.flatMap declarations)[id]? = some d) : d.id = id := by
  rw [((outlines_readFrom hfound).2.2 id d hd).1, Nat.zero_add]

/-- The declarations of an outline are found from its base on. -/
theorem getElem?_block (ho : o ∈ found) (hid : o.Has id) :
    (found.flatMap Outline.declarations)[id]? = o.declarations[id - o.base]? := by
  have hlt : id - o.base < o.declarations.length := Nat.sub_lt_left_of_lt_add hid.1 hid.2
  have hd := getElem?_eq_getElem hlt
  obtain ⟨i, hi⟩ := mem_iff_getElem?.mp (mem_flatMap.mpr ⟨o, ho, mem_of_getElem? hd⟩)
  have hnumber := ((Outline.readFrom_of_read (read_of_mem hfound ho)).declared _ _ hd).1
  rw [Nat.add_sub_of_le hid.1, id_of_getElem? hfound hi] at hnumber
  subst hnumber
  rw [hd, hi]

theorem has_of_mem_declarations (ho : o ∈ found) (hd : d ∈ o.declarations) : o.Has d.id := by
  have hfrom := Outline.readFrom_of_read (read_of_mem hfound ho)
  obtain ⟨i, hi⟩ := mem_iff_getElem?.mp hd
  obtain ⟨hlt, -⟩ := List.getElem?_eq_some_iff.mp hi
  rw [(hfrom.declared i d hi).1]
  exact ⟨Nat.le_add_right _ _, Nat.add_lt_add_left hlt _⟩

/-- Every number is that of a declaration of one of the outlines. -/
theorem exists_block (hid : id < (found.flatMap declarations).length) :
    ∃ o ∈ found, o.Has id := by
  have hd := getElem?_eq_getElem hid
  obtain ⟨o, ho, hmem⟩ := mem_flatMap.mp (mem_of_getElem? hd)
  refine ⟨o, ho, ?_⟩
  rw [← id_of_getElem? hfound hd]
  exact has_of_mem_declarations hfound ho hmem

theorem lt_of_has (ho : o ∈ found) (hid : o.Has id) :
    id < (found.flatMap declarations).length := by
  have hget := getElem?_block hfound ho hid
  have hlt : id - o.base < o.declarations.length := Nat.sub_lt_left_of_lt_add hid.1 hid.2
  rw [getElem?_eq_getElem hlt] at hget
  exact (List.getElem?_eq_some_iff.mp hget).1

/-- The blocks are apart. -/
theorem eq_of_has (ho : o ∈ found) (hq : q ∈ found) (hid : o.Has id) (hid' : q.Has id) : o = q := by
  have happart := (blocks_of_outlines hfound).2
  obtain ⟨i, hi, rfl⟩ := mem_iff_getElem.mp ho
  obtain ⟨j, hj, rfl⟩ := mem_iff_getElem.mp hq
  rcases Nat.lt_trichotomy i j with hij | rfl | hji
  · have hle := pairwise_iff_getElem.mp happart i j hi hj hij
    exact absurd (Nat.lt_of_lt_of_le hid.2 hle) (Nat.not_lt_of_le hid'.1)
  · rfl
  · have hle := pairwise_iff_getElem.mp happart j i hj hi hji
    exact absurd (Nat.lt_of_lt_of_le hid'.2 hle) (Nat.not_lt_of_le hid.1)

/-- What stands in a declaration is declared in the same module. -/
theorem inside_block (kinds : ModuleMap ModuleKind) (ho : o ∈ found) (hid : o.Has id) (name : Text) :
    Scope.inside ⟨found.flatMap declarations, kinds⟩ id name =
      o.declarations.filter fun d => d.parent? = some id && decide (d.name.SameName name) := by
  have happart := (blocks_of_outlines hfound).2
  have hclosed : ∀ q ∈ found, q.Closed := fun q hq => closed_of_read (read_of_mem hfound hq)
  have hnone : ∀ q ∈ found, ¬ q.Has id → (q.declarations.filter fun d =>
      d.parent? = some id && decide (d.name.SameName name)) = [] := by
    intro q hq hout
    rw [filter_eq_nil_iff]
    intro d hd hparent
    rw [Bool.and_eq_true, decide_eq_true_eq] at hparent
    exact hout ((hclosed q hq).parents d hd id hparent.1)
  obtain ⟨before, after, rfl⟩ := append_of_mem ho
  obtain ⟨-, hafter, hbefore⟩ := pairwise_append.mp happart
  rw [Scope.inside, filter_flatMap, flatMap_append, flatMap_cons,
    flatMap_eq_nil_iff.mpr, flatMap_eq_nil_iff.mpr, nil_append, append_nil]
  · intro q hq
    refine hnone q (mem_append_right _ (mem_cons_of_mem _ hq)) ?_
    intro hin
    have hle := (pairwise_cons.mp hafter).1 q hq
    exact Nat.not_lt_of_le (Nat.le_trans hle hin.1) hid.2
  · intro q hq
    refine hnone q (mem_append_left _ hq) ?_
    intro hin
    have hle := hbefore q hq o mem_cons_self
    exact Nat.not_lt_of_le (Nat.le_trans hle hid.1) hin.2

/-- The declaration of a module is the only one of its kind in the outline. -/
theorem module_unique (ho : o ∈ found) {d e : Declaration} (hd : d ∈ o.declarations)
    (he : e ∈ o.declarations) (hkind : d.kind = .module) (hkind' : e.kind = .module) : d = e := by
  obtain ⟨module, rest, hdeclarations, -, -, -, hrest⟩ :=
    (Outline.closed_of_read (read_of_mem hfound ho)).module
  rw [hdeclarations] at hd he
  rcases mem_cons.mp hd with rfl | hd
  · rcases mem_cons.mp he with rfl | he
    · rfl
    · exact absurd hkind' (hrest e he)
  · exact absurd hkind (hrest d hd)

/-- The declaration of a module has the names of its source. -/
theorem named_of_module (ho : o ∈ found) (hd : d ∈ o.declarations) (hkind : d.kind = .module) :
    d.module = o.source.id ∧ d.name = o.source.id.component := by
  have hread := read_of_mem hfound ho
  obtain ⟨i, hi⟩ := mem_iff_getElem?.mp hd
  refine ⟨((readFrom_of_read hread).declared i d hi).2, ?_⟩
  obtain ⟨module, rest, hdeclarations, hmodule, -, hname, -⟩ := (closed_of_read hread).module
  have hmem : module ∈ o.declarations := hdeclarations ▸ mem_cons_self
  rw [module_unique hfound ho hd hmem hkind hmodule, hname]

end

/-! ## Two readings -/

/-- The component names of the modules are all different. -/
def DistinctNames (sources : List Source) : Prop :=
  sources.Pairwise fun a b => ¬ a.id.component.SameName b.id.component

instance (sources : List Source) : Decidable (DistinctNames sources) :=
  inferInstanceAs (Decidable (List.Pairwise _ _))

theorem eq_of_sameName (hnames : DistinctNames (found.map source)) (ho : o ∈ found)
    (hq : q ∈ found) (h : o.source.id.component.SameName q.source.id.component) : o = q := by
  rw [DistinctNames, pairwise_map] at hnames
  exact eq_of_pairwise_not (fun _ _ hsame => Eq.symm hsame) hnames ho hq h

/-- Two readings of the same modules, the first with names that are all different, and the numbers of
the second in terms of those of the first. -/
structure Relocation (f : DeclarationId → DeclarationId) (found found' : List Outline) : Prop where
  read : outlines 0 (found.map Outline.source) = .ok found
  read' : outlines 0 (found'.map Outline.source) = .ok found'
  perm : (found.map Outline.source).Perm (found'.map Outline.source)
  distinct : DistinctNames (found.map Outline.source)
  moves : ∀ o ∈ found, ∀ o' ∈ found', o'.source = o.source →
    ∀ id, o.Has id → f id = id - o.base + o'.base

theorem exists_relocation (h : outlines 0 sources = .ok found) (h' : outlines 0 sources' = .ok found')
    (hperm : sources.Perm sources') (hnames : DistinctNames sources) :
    ∃ f, Relocation f found found' := by
  obtain ⟨rfl, -, -⟩ := outlines_readFrom h
  obtain ⟨rfl, -, -⟩ := outlines_readFrom h'
  have hnames' : DistinctNames (found'.map source) :=
    (hperm.pairwise_iff fun hab hba => hab (Eq.symm hba)).mp hnames
  have hnumber : ∀ id, ∃ id', ∀ o ∈ found, ∀ o' ∈ found', o'.source = o.source →
      o.Has id → id' = id - o.base + o'.base := by
    intro id
    by_cases hblock : ∃ o ∈ found, ∃ o' ∈ found', o'.source = o.source ∧ o.Has id
    · obtain ⟨o, ho, o', ho', hsource, hid⟩ := hblock
      refine ⟨id - o.base + o'.base, ?_⟩
      intro q hq q' hq' hsource' hid'
      cases eq_of_has h ho hq hid hid'
      have hsame : o'.source.id.component.SameName q'.source.id.component := by
        rw [hsource, hsource']
        rfl
      cases eq_of_sameName hnames' ho' hq' hsame
      rfl
    · exact ⟨id, fun o ho o' ho' hsource hid => absurd ⟨o, ho, o', ho', hsource, hid⟩ hblock⟩
  obtain ⟨f, hf⟩ := Classical.axiomOfChoice hnumber
  exact ⟨f, h, h', hperm, hnames, fun o ho o' ho' hsource id => hf id o ho o' ho' hsource⟩

namespace Relocation

variable (h : Relocation f found found')

include h

theorem distinct' : DistinctNames (found'.map source) :=
  (h.perm.pairwise_iff fun hab hba => hab (Eq.symm hba)).mp h.distinct

theorem exists_twin (ho : o ∈ found) : ∃ o' ∈ found', o'.source = o.source :=
  mem_map.mp (h.perm.subset (mem_map_of_mem ho))

/-- An outline of the second reading is the one of the first with other numbers. -/
theorem renumbered (ho : o ∈ found) (ho' : o' ∈ found') (hsource : o'.source = o.source) :
    o'.declarations = o.declarations.map (.renumber f) ∧ o'.bodies = o.bodies.map (.renumber f) :=
  Outline.eq_renumber_of_read (read_of_mem h.read ho) (read_of_mem h.read' ho') hsource
    (h.moves o ho o' ho' hsource)

/-- What is collected from the outlines is the same up to order if each outline contributes the
same. -/
theorem flatMap_perm {β : Type} {g g' : Outline → List β}
    (hg : ∀ o ∈ found, ∀ o' ∈ found', o'.source = o.source → g' o' = g o) :
    (found.flatMap g).Perm (found'.flatMap g') := by
  let ofSource (s : Source) : List β := ((found'.find? (·.source = s)).map g').getD []
  have hofSource : ∀ o' ∈ found', ofSource o'.source = g' o' := by
    intro o' ho'
    cases hfind : found'.find? (·.source = o'.source) with
    | none =>
      have hnone := find?_eq_none.mp hfind o' ho'
      simp at hnone
    | some q' =>
      have hsource : q'.source = o'.source := by simpa using find?_some hfind
      have hsame : q'.source.id.component.SameName o'.source.id.component := by
        rw [hsource]
        rfl
      cases eq_of_sameName h.distinct' (mem_of_find?_eq_some hfind) ho' hsame
      simp [ofSource, hfind]
  have hfirst : found.flatMap g = (found.map source).flatMap ofSource := by
    rw [flatMap_map]
    refine flatMap_congr ?_
    intro o ho
    obtain ⟨o', ho', hsource⟩ := h.exists_twin ho
    rw [← hg o ho o' ho' hsource, ← hofSource o' ho', hsource]
  have hsecond : found'.flatMap g' = (found'.map source).flatMap ofSource := by
    rw [flatMap_map]
    exact flatMap_congr fun o' ho' => (hofSource o' ho').symm
  rw [hfirst, hsecond]
  exact h.perm.flatMap_right ofSource

theorem declarations_perm : ((found.flatMap declarations).map (.renumber f)).Perm
    (found'.flatMap declarations) := by
  rw [map_flatMap]
  exact h.flatMap_perm fun o ho o' ho' hsource => (h.renumbered ho ho' hsource).1

/-- The numbers of an outline become those of the outline of the same source. -/
theorem has_moved (ho : o ∈ found) (ho' : o' ∈ found') (hsource : o'.source = o.source)
    (hid : o.Has id) : o'.Has (f id) := by
  have hlength : o'.declarations.length = o.declarations.length := by
    rw [(h.renumbered ho ho' hsource).1, length_map]
  have hlt : id - o.base < o.declarations.length := Nat.sub_lt_left_of_lt_add hid.1 hid.2
  rw [h.moves o ho o' ho' hsource id hid, Has, nextId, hlength, Nat.add_comm o'.base]
  exact ⟨Nat.le_add_left _ _, Nat.add_lt_add_right hlt _⟩

theorem injective {a b : DeclarationId} (ha : a < (found.flatMap declarations).length)
    (hb : b < (found.flatMap declarations).length) (hab : f a = f b) : a = b := by
  obtain ⟨o, ho, hina⟩ := exists_block h.read ha
  obtain ⟨q, hq, hinb⟩ := exists_block h.read hb
  obtain ⟨o', ho', hsource⟩ := h.exists_twin ho
  obtain ⟨q', hq', hsource'⟩ := h.exists_twin hq
  have hmoved := h.has_moved ho ho' hsource hina
  rw [hab] at hmoved
  cases eq_of_has h.read' ho' hq' hmoved (h.has_moved hq hq' hsource' hinb)
  have hsame : o.source.id.component.SameName q.source.id.component := by
    rw [← hsource, ← hsource']
    rfl
  cases eq_of_sameName h.distinct ho hq hsame
  rw [h.moves o ho o' ho' hsource a hina, h.moves o ho o' ho' hsource b hinb] at hab
  rw [← Nat.sub_add_cancel hina.1, Nat.add_right_cancel hab, Nat.sub_add_cancel hinb.1]

theorem getElem?_moved (hid : id < (found.flatMap declarations).length) :
    (found'.flatMap declarations)[f id]? = (found.flatMap declarations)[id]?.map (.renumber f) := by
  obtain ⟨o, ho, hin⟩ := exists_block h.read hid
  obtain ⟨o', ho', hsource⟩ := h.exists_twin ho
  rw [getElem?_block h.read ho hin, getElem?_block h.read' ho' (h.has_moved ho ho' hsource hin),
    (h.renumbered ho ho' hsource).1, getElem?_map, h.moves o ho o' ho' hsource id hin,
    Nat.add_sub_cancel]

/-- A look-up for a module finds the same in both readings, as there is no second module that could
be meant. -/
theorem getLast?_moved {wanted : Declaration → Bool}
    (hwanted : ∀ d, wanted (d.renumber f) = wanted d)
    (hunique : ∀ o ∈ found, ∀ q ∈ found, ∀ d ∈ o.declarations, ∀ e ∈ q.declarations,
      wanted d = true → wanted e = true → o = q ∧ d.kind = .module ∧ e.kind = .module) :
    ((found'.flatMap declarations).filter wanted).getLast? =
      (((found.flatMap declarations).filter wanted).getLast?).map (.renumber f) := by
  have hperm := (h.declarations_perm.filter wanted).symm
  have hall : ∀ d ∈ (found.flatMap declarations).filter wanted,
      ∀ e ∈ (found.flatMap declarations).filter wanted, d = e := by
    intro d hd e he
    obtain ⟨hd, hwd⟩ := mem_filter.mp hd
    obtain ⟨he, hwe⟩ := mem_filter.mp he
    obtain ⟨o, ho, hd⟩ := mem_flatMap.mp hd
    obtain ⟨q, hq, he⟩ := mem_flatMap.mp he
    obtain ⟨rfl, hkind, hkind'⟩ := hunique o ho q hq d hd e he hwd hwe
    exact module_unique h.read ho hd he hkind hkind'
  have hcomp : wanted ∘ Declaration.renumber f = wanted := funext hwanted
  rw [filter_map, hcomp] at hperm
  generalize (found.flatMap declarations).filter wanted = one at hperm hall
  generalize (found'.flatMap declarations).filter wanted = other at hperm
  cases hlast : one.getLast? with
  | none =>
    rw [getLast?_eq_none_iff] at hlast
    subst hlast
    rw [map_nil, perm_nil] at hperm
    rw [hperm]
    rfl
  | some d =>
    have hd := mem_of_getLast? hlast
    cases hlast' : other.getLast? with
    | none =>
      rw [getLast?_eq_none_iff] at hlast'
      subst hlast'
      rw [nil_perm, map_eq_nil_iff] at hperm
      subst hperm
      cases hd
    | some d' =>
      obtain ⟨e, he, rfl⟩ := mem_map.mp (hperm.subset (mem_of_getLast? hlast'))
      rw [hall e he d hd]
      rfl

/-- What is declared at the level of a module belongs to it. -/
theorem owned_of_read (kinds : ModuleMap ModuleKind) (m : ModuleName) (name : Text) :
    ∀ d ∈ Scope.declaredIn ⟨found.flatMap declarations, kinds⟩ m name, d.module.Same m := by
  intro d hd
  rw [Scope.declaredIn] at hd
  split at hd
  · rename_i parent hscope
    obtain ⟨e, he, rfl⟩ := Option.map_eq_some_iff.mp hscope
    obtain ⟨he, hfits⟩ := mem_filter.mp (mem_of_getLast? he)
    obtain ⟨o, ho, hmem⟩ := mem_flatMap.mp he
    rw [inside_block h.read kinds ho (has_of_mem_declarations h.read ho hmem)] at hd
    rw [Bool.and_eq_true, decide_eq_true_eq, decide_eq_true_eq] at hfits
    have hdeclared := (readFrom_of_read (read_of_mem h.read ho)).declared
    obtain ⟨i, hi⟩ := mem_iff_getElem?.mp (mem_of_mem_filter hd)
    obtain ⟨j, hj⟩ := mem_iff_getElem?.mp hmem
    rw [(hdeclared i d hi).2, ← (hdeclared j e hj).2]
    exact hfits.2
  · cases hd

/-- Both readings bind names alike, whatever the orders are in which they list their modules. -/
theorem renumbers {kinds kinds' : ModuleMap ModuleKind} (hkinds : kinds'.Perm kinds)
    (hkeys : kinds.Pairwise fun a b => ¬ a.1.Same b.1) :
    Scope.Renumbers f ⟨found.flatMap declarations, kinds⟩ ⟨found'.flatMap declarations, kinds'⟩ where
  kinds := hkinds
  keys := hkeys
  owned := h.owned_of_read kinds
  placed := by
    intro d hd
    obtain ⟨o, ho, hmem⟩ := mem_flatMap.mp hd
    exact lt_of_has h.read ho (has_of_mem_declarations h.read ho hmem)
  injective := fun a ha b hb hab => h.injective ha hb hab
  get? := fun id hid => h.getElem?_moved hid
  inside := by
    intro id hid name
    obtain ⟨o, ho, hin⟩ := exists_block h.read hid
    obtain ⟨o', ho', hsource⟩ := h.exists_twin ho
    rw [inside_block h.read kinds ho hin,
      inside_block h.read' kinds' ho' (h.has_moved ho ho' hsource hin),
      (h.renumbered ho ho' hsource).1, filter_map]
    congr 1
    refine filter_congr ?_
    intro d hd
    have hparent : (d.renumber f).parent? = some (f id) ↔ d.parent? = some id := by
      constructor
      · intro hmap
        obtain ⟨parent, hparent, heq⟩ := Option.map_eq_some_iff.mp hmap
        have hhas := (Outline.closed_of_read (read_of_mem h.read ho)).parents d hd parent hparent
        rw [hparent, h.injective (lt_of_has h.read ho hhas) hid heq]
      · intro hsome
        rw [Declaration.renumber, hsome]
        rfl
    exact congrArg (· && decide (d.name.SameName name)) (decide_eq_decide.mpr hparent)
  moduleScope? := by
    intro m
    simp only [Scope.moduleScope?]
    rw [h.getLast?_moved (fun d => rfl), Option.map_map, Option.map_map]
    · rfl
    · intro o ho q hq d hd e he hwd hwe
      rw [Bool.and_eq_true, decide_eq_true_eq, decide_eq_true_eq] at hwd hwe
      have hsame : d.module.Same e.module := hwd.2.trans hwe.2.symm
      rw [(named_of_module h.read ho hd hwd.1).1, (named_of_module h.read hq he hwe.1).1] at hsame
      exact ⟨eq_of_sameName h.distinct ho hq (congrArg Prod.snd hsame), hwd.1, hwe.1⟩
  moduleNamed? := by
    intro type
    simp only [Scope.moduleNamed?]
    rw [h.getLast?_moved (fun d => rfl), Option.map_map]
    · rfl
    · intro o ho q hq d hd e he hwd hwe
      rw [Bool.and_eq_true, decide_eq_true_eq, decide_eq_true_eq] at hwd hwe
      have hsame : d.name.SameName e.name := Eq.trans hwd.2 (Eq.symm hwe.2)
      rw [(named_of_module h.read ho hd hwd.1).2, (named_of_module h.read hq he hwe.1).2] at hsame
      exact ⟨eq_of_sameName h.distinct ho hq hsame, hwd.1, hwe.1⟩

theorem kinds_distinct : (found.map fun o => (o.source.id, o.source.kind)).Pairwise
    fun a b => ¬ a.1.Same b.1 := by
  rw [pairwise_map]
  refine (pairwise_map.mp h.distinct).imp ?_
  intro a b hne hsame
  exact hne (congrArg Prod.snd hsame)

/-- The tables of the kinds of the modules list the same. -/
theorem kinds_perm : (ModuleMap.ofList (found'.map fun o => (o.source.id, o.source.kind))).Perm
    (ModuleMap.ofList (found.map fun o => (o.source.id, o.source.kind))) := by
  have hentries : (found.map fun o => (o.source.id, o.source.kind)).Perm
      (found'.map fun o => (o.source.id, o.source.kind)) := by
    simpa [Function.comp_def] using h.perm.map fun s => (s.id, s.kind)
  have hdistinct' := hentries.pairwise h.kinds_distinct fun hne hsame => hne hsame.symm
  exact (ModuleMap.ofList_perm hdistinct').trans
    (hentries.symm.trans (ModuleMap.ofList_perm h.kinds_distinct).symm)

/-- The second reading has the references of the first, with other numbers. -/
theorem references_perm : ((ofOutlines found).index.references.map (.renumber f)).Perm
    (ofOutlines found').index.references := by
  simp only [ofOutlines]
  rw [map_flatMap]
  refine h.flatMap_perm ?_
  intro o ho o' ho' hsource
  have hclosed := Outline.closed_of_read (read_of_mem h.read ho)
  rw [hsource, (h.renumbered ho ho' hsource).2]
  have hstart : ∀ current ∈ (none : Option DeclarationId),
      current < (found.flatMap declarations).length := by simp
  refine (h.renumbers h.kinds_perm ?_).references o.source hstart [] ?_
  · exact (ModuleMap.ofList_perm h.kinds_distinct).symm.pairwise h.kinds_distinct
      fun hne hsame => hne hsame.symm
  intro body hbody
  exact lt_of_has h.read ho (hclosed.members body hbody)

end Relocation

end Project

/-! ## What references say -/

/-- What a reference says without the numbers of declarations. -/
structure Resolution where
  /-- The module in which the use stands. -/
  module : ModuleName
  selection : Extent
  qualified : Extent
  usage : UsageKind
  arguments? : Option ArgumentList
  /-- The module of the declaration that is used, and where its name stands there. -/
  target? : Option (ModuleName × Extent)
deriving DecidableEq, Repr

/-- What a reference says. -/
def Index.resolution (index : Index) (r : Reference) : Resolution :=
  { module := r.module, selection := r.selection, qualified := r.qualified, usage := r.usage
    arguments? := r.arguments?
    target? := (index.get? r.declaration).map fun d => (d.module, d.selection) }

namespace Project

variable {p p' : Project}

/-- What is used is declared. -/
theorem declaration_lt_of_mem_references (h : read sources = .ok p) {r : Reference}
    (hr : r ∈ p.index.references) : r.declaration < p.index.declarations.length := by
  obtain ⟨place, withs, m, -, -, hscope, -, -, hbind⟩ := exists_act_of_mem_references h hr
  rcases (Place.bind?_eq_some hbind).2.2 with ⟨hresult, hmember, -⟩ | ⟨-, ⟨d, hd, hid⟩, -⟩
  · rw [hmember, ← hscope]
    unfold Place.isReturnValue at hresult
    split at hresult
    · rename_i howner
      exact (List.getElem?_eq_some_iff.mp howner).1
    · cases hresult
  · have hmem := Place.mem_of_mem_candidates hd
    rw [hscope] at hmem
    obtain ⟨i, hi⟩ := mem_iff_getElem?.mp hmem
    rw [hid, (declared_of_get? h hi).1]
    exact (List.getElem?_eq_some_iff.mp hi).1

theorem exists_read_iff : (∃ p, read sources = .ok p) ↔ ∀ s ∈ sources, ∃ o, Outline.read 0 s = .ok o := by
  rw [← exists_outlines_iff 0]
  constructor
  · rintro ⟨p, hp⟩
    obtain ⟨found, hfound, -⟩ := exists_outlines_of_read hp
    exact ⟨found, hfound⟩
  · rintro ⟨found, hfound⟩
    refine ⟨ofOutlines found, ?_⟩
    rw [read, hfound]
    rfl

/-- The order in which modules are read together does not matter: they can be read in one order if
they can be read in the other, and then the references say the same. -/
theorem read_perm (hperm : sources.Perm sources') (hnames : DistinctNames sources) :
    ((∃ p, read sources = .ok p) ↔ ∃ p', read sources' = .ok p') ∧
      ∀ p p', read sources = .ok p → read sources' = .ok p' →
        (p.index.references.map p.index.resolution).Perm
          (p'.index.references.map p'.index.resolution) := by
  constructor
  · rw [exists_read_iff, exists_read_iff]
    exact forall_congr' fun s => by rw [hperm.mem_iff]
  · intro p p' hread hread'
    obtain ⟨found, hfound, rfl⟩ := exists_outlines_of_read hread
    obtain ⟨found', hfound', rfl⟩ := exists_outlines_of_read hread'
    obtain ⟨f, h⟩ := exists_relocation hfound hfound' hperm hnames
    have hsaid : (ofOutlines found).index.references.map (ofOutlines found).index.resolution =
        ((ofOutlines found).index.references.map (.renumber f)).map
          (ofOutlines found').index.resolution := by
      rw [List.map_map]
      refine List.map_congr_left ?_
      intro r hr
      have htarget := h.getElem?_moved (declaration_lt_of_mem_references hread hr)
      have hget : (ofOutlines found').index.get? (f r.declaration) =
          ((ofOutlines found).index.get? r.declaration).map (.renumber f) := htarget
      simp only [Index.resolution, Function.comp_apply, Reference.renumber, hget, Option.map_map]
      rfl
    rw [hsaid]
    exact h.references_perm.map _

/-- A module that uses another one before or after it is read; both modules declare the name, and
the call without qualifier stays in its own module. -/
theorem read_perm_caller :
    let caller : Source := ⟨⟨"P", "Main"⟩, .standard,
      "Public Sub Run()\n    Helper.Log 1\n    Log\nEnd Sub\nPrivate Sub Log()\nEnd Sub\n".toList⟩
    let helper : Source := ⟨⟨"P", "Helper"⟩, .standard,
      "Public Total As Long\nPublic Sub Log(a)\n    Total = a\nEnd Sub\n".toList⟩
    ∃ p p', read [caller, helper] = .ok p ∧ read [helper, caller] = .ok p' ∧
      p.index.references.length = 3 ∧ p.index.references ≠ p'.index.references ∧
      (p.index.references.map p.index.resolution).Perm
        (p'.index.references.map p'.index.resolution) := by
  intro caller helper
  have hrun : ∃ p ∈ (read [caller, helper]).toOption, ∃ p' ∈ (read [helper, caller]).toOption,
      p.index.references.length = 3 ∧ p.index.references ≠ p'.index.references := by
    decide +kernel
  obtain ⟨p, hp, p', hp', hlength, hne⟩ := hrun
  have hread := eq_ok_of_mem_toOption hp
  have hread' := eq_ok_of_mem_toOption hp'
  have hnames : DistinctNames [caller, helper] := by decide
  exact ⟨p, p', hread, hread', hlength, hne,
    (read_perm (List.Perm.swap helper caller []) hnames).2 p p' hread hread'⟩

end Project

end VbaRefactor
