import VbaRefactor.Plan.Basic
import VbaRefactor.Proofs.Scoping
import VbaRefactor.Proofs.Syntax.ModuleLevel

/-!
# Modules that are read together

What stands at the level of a module is what its own outline declares, whatever other modules are read
with it. Modules that can each be read can be read together.
-/

namespace VbaRefactor

open List Outline

theorem Plan.update_eq_map (changes : Changes) (sources : List Source) :
    update changes sources = sources.map fun source =>
      { source with text := (changes.get? source.id).getD source.text } := by
  rw [update]
  refine map_congr_left fun source _ => ?_
  split
  · rename_i text htext
    rw [htext]
    rfl
  · rename_i hnone
    rw [hnone]
    rfl

namespace Project

variable {sources : List Source} {found : List Outline} {o : Outline}

/-- A reference is a token of a statement in a member. -/
theorem exists_token_of_mem_references {r : Reference}
    (hr : r ∈ (ofOutlines found).index.references) :
    ∃ o ∈ found, r.module = o.source.id ∧ ∃ body ∈ o.bodies, ∃ t ∈ body.tokens,
      r.selection = o.source.text.extent t.span := by
  obtain ⟨o, ho, hmem⟩ := mem_flatMap.mp hr
  obtain ⟨body, hbody, withs, m, hm, hbind⟩ := Scope.exists_bind_of_mem_references hmem
  obtain ⟨t, ht, hspan⟩ := Statement.exists_spanAt hm.leads.given
  refine ⟨o, ho, (Scope.references_supplied hmem).1, body, hbody, t, ht, ?_⟩
  rw [(Place.bind?_eq_some hbind).2.1, ← hspan]

section

variable (hfound : outlines 0 sources = .ok found)
  (hnames : (found.map source).Pairwise fun a b => ¬ a.id.Same b.id)

include hfound hnames

section

variable {m : ModuleName} (ho : o ∈ found) (hsame : o.source.id.Same m)

include ho hsame

theorem declarationOf?_eq :
    ∃ d, (ofOutlines found).index.declarationOf? m = some d ∧ d.id = o.base := by
  have hread := read_of_mem hfound ho
  obtain ⟨d, rest, hdeclarations, hkind, -⟩ := (closed_of_read hread).module
  have hd : d ∈ o.declarations := by rw [hdeclarations]; exact mem_cons_self
  have hdeclared := (readFrom_of_read hread).declared 0 d (by rw [hdeclarations]; rfl)
  have hall : d ∈ found.flatMap declarations := mem_flatMap.mpr ⟨o, ho, hd⟩
  have hmodule : d.kind = .module ∧ d.module.Same m := ⟨hkind, by rw [hdeclared.2]; exact hsame⟩
  cases hfind : (ofOutlines found).index.declarationOf? m with
  | none =>
    have hnone := find?_eq_none.mp hfind d hall
    simp [hmodule] at hnone
  | some e =>
    have he : e.kind = .module ∧ e.module.Same m := by simpa using find?_some hfind
    have heq := eq_of_isModule hfound hnames (mem_of_find?_eq_some hfind) hall he hmodule
    exact ⟨e, rfl, by rw [heq, hdeclared.1, Nat.add_zero]⟩

omit hfound hnames ho hsame in
theorem profiles_eq (o : Outline) :
    o.profiles = (o.declarations.filter (·.parent? = some o.base)).map Declaration.profile := by
  rw [profiles, members, map_map]
  rfl

omit hnames hsame in
/-- What stands in a declaration of an outline is declared by this outline. -/
theorem filter_parent_eq {id : DeclarationId} (hid : o.Has id) :
    (ofOutlines found).index.declarations.filter (·.parent? = some id) =
      o.declarations.filter (·.parent? = some id) := by
  obtain ⟨before, after, rfl⟩ := append_of_mem ho
  obtain ⟨-, hafter, hbefore⟩ := pairwise_append.mp (blocks_of_outlines hfound).2
  -- The numbers of another outline are all below or all above those of this one.
  have hother {q : Outline} (hq : q ∈ before ++ o :: after)
      (hapart : q.nextId ≤ o.base ∨ o.nextId ≤ q.base) :
      q.declarations.filter (·.parent? = some id) = [] := by
    rw [filter_eq_nil_iff]
    intro e he hparent
    have hhas := (closed_of_read (read_of_mem hfound hq)).parents e he id (by simpa using hparent)
    rcases hapart with hle | hle
    · exact absurd hhas.2 (Nat.not_lt_of_le (Nat.le_trans hle hid.1))
    · exact absurd (Nat.lt_of_lt_of_le hid.2 hle) (Nat.not_lt_of_le hhas.1)
  have hnone {list : List Outline}
      (h : ∀ q ∈ list, q.declarations.filter (·.parent? = some id) = []) :
      (list.flatMap declarations).filter (·.parent? = some id) = [] := by
    rw [filter_flatMap, flatMap_eq_nil_iff]
    exact h
  change ((before ++ o :: after).flatMap declarations).filter _ = _
  rw [flatMap_append, flatMap_cons, filter_append, filter_append, hnone, hnone,
    nil_append, append_nil]
  · intro q hq
    exact hother (by simp [hq]) (.inr ((pairwise_cons.mp hafter).1 q hq))
  · intro q hq
    exact hother (by simp [hq]) (.inl (hbefore q hq o mem_cons_self))

/-- What stands at the level of a module is declared by its outline. -/
theorem moduleMembers_eq :
    (ofOutlines found).index.moduleMembers m = o.declarations.filter (·.parent? = some o.base) := by
  obtain ⟨d, hd, hid⟩ := declarationOf?_eq hfound hnames ho hsame
  rw [Index.moduleMembers, hd]
  simp only [hid]
  exact filter_parent_eq hfound ho (closed_of_read (read_of_mem hfound ho)).has_base

theorem map_profile_moduleMembers :
    ((ofOutlines found).index.moduleMembers m).map Declaration.profile = o.profiles := by
  rw [moduleMembers_eq hfound hnames ho hsame, profiles_eq]

end

end

/-- Modules that can be read wherever their declarations are numbered from can be read together. -/
theorem exists_outlines {α : Type} {f : α → Source} {R : α → Outline → Prop} {xs : List α}
    (h : ∀ x ∈ xs, ∀ base, ∃ o, Outline.read base (f x) = .ok o ∧ R x o) (base : DeclarationId) :
    ∃ found, outlines base (xs.map f) = .ok found ∧ List.Forall₂ R xs found := by
  induction xs generalizing base with
  | nil => exact ⟨[], rfl, .nil⟩
  | cons x xs ih =>
    obtain ⟨hx, hrest⟩ := forall_mem_cons.mp h
    obtain ⟨o, ho, hr⟩ := hx base
    obtain ⟨more, hmore, hall⟩ := ih hrest o.nextId
    refine ⟨o :: more, ?_, .cons hr hall⟩
    rw [map_cons, outlines, ho]
    simp only [hmore]

/-- Modules of which each can be read with its new text can be read together with their new texts. -/
theorem exists_outlines_update (changes : Changes) {R : Outline → Outline → Prop}
    (hnames : (found.map source).Pairwise fun a b => ¬ a.id.Same b.id)
    (h : ∀ o ∈ found, ∀ base, ∃ o', Outline.read base
      { o.source with text := (changes.get? o.source.id).getD o.source.text } = .ok o' ∧ R o o') :
    ∃ found', outlines 0 (Plan.update changes (found.map source)) = .ok found' ∧
      (found'.map source).Pairwise (fun a b => ¬ a.id.Same b.id) ∧
      List.Forall₂ (fun o o' => o'.source.id = o.source.id ∧ R o o') found found' := by
  have hupdate : Plan.update changes (found.map source) = found.map fun o =>
      { o.source with text := (changes.get? o.source.id).getD o.source.text } := by
    rw [Plan.update_eq_map, map_map]
    rfl
  obtain ⟨found', hfound', hall⟩ := exists_outlines
    (R := fun o o' => o'.source.id = o.source.id ∧ R o o') (fun o ho base => by
      obtain ⟨o', ho', hr⟩ := h o ho base
      exact ⟨o', ho', by rw [(readFrom_of_read ho').ofSource], hr⟩) 0
  rw [← hupdate] at hfound'
  refine ⟨found', hfound', ?_, hall⟩
  rw [(outlines_readFrom hfound').1, hupdate, pairwise_map]
  exact pairwise_map.mp hnames

end Project

end VbaRefactor
