import VbaRefactor.Proofs.Affected
import VbaRefactor.Proofs.ModuleTable
import VbaRefactor.Proofs.Syntax.Mentions
import VbaRefactor.Proofs.Syntax.Outline

/-!
# What a reading gives

Modules with different names that are read together are all there, with their own texts. Every
declaration is found by its number and belongs to one of the modules.
-/

namespace VbaRefactor

open List Outline

variable {sources : List Source} {α : Type}

theorem eq_ok_of_mem_toOption {ε : Type} {x : Except ε α} {a : α} (h : a ∈ x.toOption) :
    x = .ok a := by
  cases x with
  | error e => cases h
  | ok b =>
    cases h
    rfl

theorem exists_ok_of_toOption {ε : Type} {x : Except ε α} {P : α → Prop}
    (h : ∃ a ∈ x.toOption, P a) : ∃ a, x = .ok a ∧ P a := by
  obtain ⟨a, ha, hP⟩ := h
  exact ⟨a, eq_ok_of_mem_toOption ha, hP⟩

def Source.statements (s : Source) : List Statement := Statement.ofTokens (tokenize s.text)

/-- Of a list whose members are all unlike each other, two that are alike are the same. -/
theorem eq_of_pairwise_not {alike : α → α → Prop} (hsymm : ∀ a b, alike a b → alike b a)
    {xs : List α} (h : xs.Pairwise fun a b => ¬ alike a b) {a b : α} (ha : a ∈ xs) (hb : b ∈ xs)
    (hab : alike a b) : a = b := by
  induction xs with
  | nil => cases ha
  | cons first rest ih =>
    obtain ⟨hfirst, hrest⟩ := pairwise_cons.mp h
    rcases mem_cons.mp ha with rfl | hina
    · rcases mem_cons.mp hb with rfl | hinb
      · rfl
      · exact absurd hab (hfirst b hinb)
    · rcases mem_cons.mp hb with rfl | hinb
      · exact absurd (hsymm a b hab) (hfirst a hina)
      · exact ih hrest hina hinb

theorem Source.eq_of_same (hnames : sources.Pairwise fun a b => ¬ a.id.Same b.id) {s s' : Source}
    (hs : s ∈ sources) (hs' : s' ∈ sources) (h : s.id.Same s'.id) : s = s' :=
  eq_of_pairwise_not (fun _ _ hsame => hsame.symm) hnames hs hs' h

namespace Project

variable {p : Project} {found : List Outline}

/-- The outlines follow the sources, and their declarations are numbered one after another. -/
theorem outlines_readFrom {base : DeclarationId} (h : outlines base sources = .ok found) :
    found.map source = sources ∧
    (∀ o ∈ found, ∃ first, ReadFrom o.source.statements o.source first o) ∧
    ∀ i d, (found.flatMap declarations)[i]? = some d →
      d.id = base + i ∧ ∃ s ∈ sources, d.module = s.id := by
  induction sources generalizing base found with
  | nil =>
    cases h
    simp
  | cons source rest ih =>
    rw [outlines] at h
    split at h
    · cases h
    rename_i outline hread
    have hfrom := readFrom_of_read hread
    split at h
    · cases h
    rename_i more hmore
    cases h
    obtain ⟨hsources, hall, hdeclared⟩ := ih hmore
    refine ⟨?_, ?_, ?_⟩
    · rw [map_cons, hsources, hfrom.ofSource]
    · intro o ho
      rcases mem_cons.mp ho with rfl | ho
      · refine ⟨base, ?_⟩
        rw [hfrom.ofSource]
        exact hfrom
      · exact hall o ho
    · intro i d hd
      rw [flatMap_cons, getElem?_append] at hd
      split at hd
      · obtain ⟨hid, hmodule⟩ := hfrom.declared i d hd
        exact ⟨hid, source, mem_cons_self, hmodule⟩
      · obtain ⟨hid, s, hs, hmodule⟩ := hdeclared _ d hd
        refine ⟨?_, s, mem_cons_of_mem _ hs, hmodule⟩
        rw [hid, nextId, hfrom.ofBase, Nat.add_assoc]
        congr 1
        omega

section

variable (h : read sources = .ok p)

include h

theorem exists_outlines_of_read :
    ∃ found, outlines 0 sources = .ok found ∧ p = ofOutlines found := by
  rw [read] at h
  cases hfound : outlines 0 sources with
  | error e =>
    rw [hfound] at h
    cases h
  | ok found =>
    rw [hfound] at h
    cases h
    exact ⟨found, rfl, rfl⟩

/-- Every declaration is found by its number and belongs to a module. -/
theorem declared_of_get? {id : DeclarationId} {d : Declaration} (hd : p.index.get? id = some d) :
    d.id = id ∧ ∃ s ∈ sources, d.module = s.id := by
  obtain ⟨found, hfound, rfl⟩ := exists_outlines_of_read h
  obtain ⟨hid, hmodule⟩ := (outlines_readFrom hfound).2.2 id d hd
  exact ⟨by rw [hid, Nat.zero_add], hmodule⟩

theorem numbered_of_read : p.index.Numbered := by
  apply ext_getElem?
  intro i
  cases hd : p.index.declarations[i]? with
  | none =>
    have hi := List.getElem?_eq_none_iff.mp hd
    rw [getElem?_map, hd, getElem?_eq_none (by simpa using hi)]
    rfl
  | some d =>
    obtain ⟨hi, -⟩ := List.getElem?_eq_some_iff.mp hd
    rw [getElem?_map, hd, getElem?_range hi, Option.map_some, (declared_of_get? h hd).1]

/-- Every reference stands in a module and has its arguments from a statement there. -/
theorem supplied_of_mem_references {r : Reference} (hr : r ∈ p.index.references) :
    ∃ s ∈ sources, r.module = s.id ∧
      ∀ list, r.arguments? = some list → ∃ statement ∈ s.statements, statement.Supplies list := by
  obtain ⟨found, hfound, rfl⟩ := exists_outlines_of_read h
  obtain ⟨rfl, hfrom, -⟩ := outlines_readFrom hfound
  obtain ⟨o, ho, hmem⟩ := mem_flatMap.mp hr
  obtain ⟨hmodule, hlists⟩ := Scope.references_supplied hmem
  obtain ⟨first, hread⟩ := hfrom o ho
  refine ⟨o.source, mem_map_of_mem ho, hmodule, ?_⟩
  intro list hlist
  obtain ⟨body, hbody, hsupplies⟩ := hlists list hlist
  exact ⟨body.tokens, hread.bodies body hbody, hsupplies⟩

end

section

variable (hnames : (found.map source).Pairwise fun a b => ¬ a.id.Same b.id)

include hnames

theorem get?_modules_ofOutlines (m : ModuleName) (c : ModuleContent) :
    (ofOutlines found).modules.get? m = some c ↔
      ∃ o ∈ found, c = ⟨o.source, o.items⟩ ∧ o.source.id.Same m := by
  have hpairs : (found.map fun o => (o.source.id, ModuleContent.mk o.source o.items)).Pairwise
      fun a b => ¬ a.1.Same b.1 := by
    rw [pairwise_map] at hnames ⊢
    exact hnames
  simp only [ofOutlines, ModuleMap.get?_ofList hpairs, mem_map, Prod.mk.injEq]
  constructor
  · rintro ⟨k, ⟨o, ho, rfl, rfl⟩, hsame⟩
    exact ⟨o, ho, rfl, hsame⟩
  · rintro ⟨o, ho, rfl, hsame⟩
    exact ⟨_, ⟨o, ho, rfl, rfl⟩, hsame⟩

theorem get?_modules_of_mem {o : Outline} (ho : o ∈ found) :
    (ofOutlines found).modules.get? o.source.id = some ⟨o.source, o.items⟩ :=
  (get?_modules_ofOutlines hnames _ _).mpr ⟨o, ho, rfl, .refl _⟩

theorem same_of_get?_modules (m : ModuleName) (c : ModuleContent)
    (h : (ofOutlines found).modules.get? m = some c) : c.source.id.Same m := by
  obtain ⟨o, -, rfl, hsame⟩ := (get?_modules_ofOutlines hnames m c).mp h
  exact hsame

end

section

variable (hnames : sources.Pairwise fun a b => ¬ a.id.Same b.id) (h : read sources = .ok p)

include hnames h

theorem get?_modules_iff (m : ModuleName) (s : Source) :
    (∃ c, p.modules.get? m = some c ∧ c.source = s) ↔ s ∈ sources ∧ s.id.Same m := by
  obtain ⟨found, hfound, rfl⟩ := exists_outlines_of_read h
  obtain ⟨rfl, -, -⟩ := outlines_readFrom hfound
  simp only [get?_modules_ofOutlines hnames, mem_map]
  constructor
  · rintro ⟨c, ⟨o, ho, rfl, hsame⟩, rfl⟩
    exact ⟨⟨o, ho, rfl⟩, hsame⟩
  · rintro ⟨⟨o, ho, rfl⟩, hsame⟩
    exact ⟨_, ⟨o, ho, rfl, hsame⟩, rfl⟩

end

end Project

end VbaRefactor
