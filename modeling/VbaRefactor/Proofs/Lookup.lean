import Mathlib.Data.List.TakeWhile
import VbaRefactor.Proofs.Project

/-!
# Looking up a name

What a request by name finds is decided by the declarations that match it. One match is meant, none
is an error, and several are ambiguous, unless all of them are accessors: then the first getter is
meant. That one is the getter of the only property in question if all matches belong to one property;
where properties of several modules have the name, it is a guess.
-/

namespace VbaRefactor

open List

variable {d : Declaration} {kind? : Option DeclarationKind}

/-- The accessors stand in one module and in one scope, so that they belong to one property. -/
def OneProperty (accessors : List Declaration) : Prop :=
  ∀ a ∈ accessors, ∀ b ∈ accessors, a.module.Same b.module ∧ a.parent? = b.parent?

instance (accessors : List Declaration) : Decidable (OneProperty accessors) :=
  inferInstanceAs (Decidable (∀ a ∈ accessors, ∀ b ∈ accessors, _))

/-- Only accessors match where no kind is asked for, and this is the first getter among them. -/
def FirstGetter (kind? : Option DeclarationKind) (found : List Declaration) (d : Declaration) : Prop :=
  kind? = none ∧ (∀ x ∈ found, x.kind.isProperty = true) ∧
    found.find? (·.kind = .propertyGet) = some d

/-- The declaration is the only match, or no kind is asked for and it is the getter of the one
property that all matches belong to. -/
def Meant (kind? : Option DeclarationKind) (found : List Declaration) (d : Declaration) : Prop :=
  found = [d] ∨ kind? = none ∧ (∀ x ∈ found, x.kind.isProperty = true) ∧ OneProperty found ∧
    d ∈ found ∧ d.kind = .propertyGet

instance (kind? : Option DeclarationKind) (found : List Declaration) (d : Declaration) :
    Decidable (Meant kind? found d) := inferInstanceAs (Decidable (_ ∨ _ ∧ _))

theorem FirstGetter.mem {found : List Declaration} (h : FirstGetter kind? found d) :
    d ∈ found ∧ d.kind = .propertyGet :=
  ⟨mem_of_find?_eq_some h.2.2, by simpa using find?_some h.2.2⟩

theorem oneProperty_singleton (d : Declaration) : OneProperty [d] := by
  intro a ha b hb
  rw [mem_singleton.mp ha, mem_singleton.mp hb]
  exact ⟨.refl _, rfl⟩

namespace Index

section

variable {index : Index} {module? : Option Text} {name : Text}

/-- A declaration matches a request by its name, if it is no module, and stands in the module and has
the kind that are asked for. -/
theorem mem_matching : d ∈ index.matching module? name kind? ↔
    d ∈ index.declarations ∧ d.name.SameName name ∧ d.kind ≠ .module ∧
      (∀ m ∈ module?, d.module.component.SameName m) ∧ ∀ k ∈ kind?, d.kind = k := by
  simp only [matching, find, mem_filter, decide_eq_true_eq, Bool.and_eq_true, ne_eq]
  cases module? <;> cases kind? <;> simp [and_assoc]

/-- What a lookup answers, by the matches. -/
theorem lookUp_cases (index : Index) (module? : Option Text) (name : Text)
    (kind? : Option DeclarationKind) :
    (index.matching module? name kind? = [] ∧
      index.lookUp module? name kind? = .error (.declarationNotFound (.member module? name))) ∨
    (∃ d, index.matching module? name kind? = [d] ∧ index.lookUp module? name kind? = .ok d) ∨
    (2 ≤ (index.matching module? name kind?).length ∧
      ∃ d, FirstGetter kind? (index.matching module? name kind?) d ∧
        index.lookUp module? name kind? = .ok d) ∨
    (2 ≤ (index.matching module? name kind?).length ∧
      (∀ d, ¬ FirstGetter kind? (index.matching module? name kind?) d) ∧
      index.lookUp module? name kind? = .error (.ambiguousDeclaration name
        ((index.matching module? name kind?).map fun d =>
          .concat [d.qualifiedName, " (", d.kind.label, ")"]))) := by
  rw [lookUp]
  generalize index.matching module? name kind? = found
  match found with
  | [] => exact .inl ⟨rfl, rfl⟩
  | [d] => exact .inr (.inl ⟨d, rfl, rfl⟩)
  | a :: b :: rest =>
    have hlength : 2 ≤ (a :: b :: rest).length := by simp
    refine .inr (.inr ?_)
    by_cases haccessors : kind? = none ∧ ∀ x ∈ a :: b :: rest, x.kind.isProperty = true
    · have hcheck : (kind?.isNone && (a :: b :: rest).all (·.kind.isProperty)) = true := by
        rw [Bool.and_eq_true, all_eq_true, Option.isNone_iff_eq_none]
        exact haccessors
      cases hfind : (a :: b :: rest).find? (·.kind = .propertyGet) with
      | some getter =>
        refine .inl ⟨hlength, getter, ⟨haccessors.1, haccessors.2, hfind⟩, ?_⟩
        rw [if_pos hcheck]
      | none =>
        refine .inr ⟨hlength, ?_, ?_⟩
        · rintro d ⟨-, -, hd⟩
          cases hfind.symm.trans hd
        · rw [if_pos hcheck]
    · have hcheck : (kind?.isNone && (a :: b :: rest).all (·.kind.isProperty)) = false := by
        rw [← Bool.not_eq_true, Bool.and_eq_true, all_eq_true, Option.isNone_iff_eq_none]
        exact haccessors
      refine .inr ⟨hlength, fun d hd => haccessors ⟨hd.1, hd.2.1⟩, ?_⟩
      rw [if_neg (by rw [hcheck]; exact Bool.false_ne_true)]

/-- A request `Module.Name` is split at its first point. -/
theorem lookUpQualified_of_point (index : Index) {m : Text} (hm : '.' ∉ m) (name : Text)
    (kind? : Option DeclarationKind) :
    index.lookUpQualified (m ++ '.' :: name) kind? = index.lookUp (some m) name kind? := by
  have hall : ∀ c ∈ m, (c != '.') = true := by
    rintro c hc
    simp only [bne_iff_ne]
    rintro rfl
    exact hm hc
  have hsplit : Text.splitFirst? '.' (m ++ '.' :: name) = some (m, name) := by
    rw [Text.splitFirst?, dropWhile_append_of_pos hall, takeWhile_append_of_pos hall]
    simp
  rw [lookUpQualified, hsplit]

theorem lookUpQualified_of_no_point (index : Index) (hname : '.' ∉ name)
    (kind? : Option DeclarationKind) :
    index.lookUpQualified name kind? = index.lookUp none name kind? := by
  have hall : ∀ c ∈ name, (c != '.') = true := by
    rintro c hc
    simp only [bne_iff_ne]
    rintro rfl
    exact hname hc
  have hsplit : Text.splitFirst? '.' name = none := by
    rw [Text.splitFirst?, dropWhile_eq_nil_iff.mpr hall]
  rw [lookUpQualified, hsplit]

/-- What a request by name means. It is not found if and only if nothing matches, and it is answered
by the only match, or by the first getter where no kind is asked for and all matches are accessors;
in every other case it is ambiguous. An answer is never a guess if and only if a getter that was
picked from several accessors is picked from accessors of one property. -/
theorem lookUp_answers (index : Index) (module? : Option Text) (name : Text)
    (kind? : Option DeclarationKind) :
    (∀ d, d ∈ index.matching module? name kind? ↔ d ∈ index.declarations ∧ d.name.SameName name ∧
      d.kind ≠ .module ∧ (∀ m ∈ module?, d.module.component.SameName m) ∧ ∀ k ∈ kind?, d.kind = k) ∧
    (index.lookUp module? name kind? = .error (.declarationNotFound (.member module? name)) ↔
      index.matching module? name kind? = []) ∧
    (∀ d, index.lookUp module? name kind? = .ok d ↔ index.matching module? name kind? = [d] ∨
      FirstGetter kind? (index.matching module? name kind?) d) ∧
    ((∃ candidates, index.lookUp module? name kind? = .error (.ambiguousDeclaration name candidates)) ↔
      2 ≤ (index.matching module? name kind?).length ∧
        ∀ d, ¬ FirstGetter kind? (index.matching module? name kind?) d) ∧
    ((∀ d, index.lookUp module? name kind? = .ok d →
        Meant kind? (index.matching module? name kind?) d) ↔
      ((∃ d, FirstGetter kind? (index.matching module? name kind?) d) →
        OneProperty (index.matching module? name kind?))) ∧
    (∀ m, '.' ∉ m → index.lookUpQualified (m ++ '.' :: name) kind? = index.lookUp (some m) name kind?) ∧
    ('.' ∉ name → index.lookUpQualified name kind? = index.lookUp none name kind?) := by
  have hok (d : Declaration) : index.lookUp module? name kind? = .ok d ↔
      index.matching module? name kind? = [d] ∨
        FirstGetter kind? (index.matching module? name kind?) d := by
    rcases lookUp_cases index module? name kind? with ⟨hfound, heq⟩ | ⟨e, hfound, heq⟩ |
      ⟨hlength, e, hgetter, heq⟩ | ⟨hlength, hnone, heq⟩
    · rw [heq, hfound]
      simp [FirstGetter]
    · rw [heq, hfound, Except.ok.injEq, List.singleton_inj]
      refine ⟨.inl, ?_⟩
      rintro (h | h)
      · exact h
      · exact (List.mem_singleton.mp h.mem.1).symm
    · rw [heq, Except.ok.injEq]
      constructor
      · rintro rfl
        exact .inr hgetter
      · rintro (h | h)
        · simp [h] at hlength
        · exact Option.some.inj (hgetter.2.2.symm.trans h.2.2)
    · rw [heq]
      refine ⟨fun h => (by cases h), ?_⟩
      rintro (h | h)
      · simp [h] at hlength
      · exact absurd h (hnone d)
  refine ⟨fun d => mem_matching, ?_, hok, ?_, ?_, fun m hm => lookUpQualified_of_point index hm name kind?,
    fun hname => lookUpQualified_of_no_point index hname kind?⟩
  · rcases lookUp_cases index module? name kind? with ⟨hfound, heq⟩ | ⟨e, hfound, heq⟩ |
      ⟨hlength, e, -, heq⟩ | ⟨hlength, -, heq⟩
    · simp [hfound, heq]
    · simp [hfound, heq]
    · rw [heq]
      refine ⟨fun h => (by cases h), fun h => ?_⟩
      simp [h] at hlength
    · rw [heq]
      refine ⟨fun h => (by cases h), fun h => ?_⟩
      simp [h] at hlength
  · rcases lookUp_cases index module? name kind? with ⟨hfound, heq⟩ | ⟨e, hfound, heq⟩ |
      ⟨hlength, e, hgetter, heq⟩ | ⟨hlength, hnone, heq⟩
    · simp [hfound, heq]
    · simp [hfound, heq]
    · rw [heq]
      refine ⟨fun ⟨_, h⟩ => (by cases h), fun h => absurd hgetter (h.2 e)⟩
    · rw [heq]
      exact iff_of_true ⟨_, rfl⟩ ⟨hlength, hnone⟩
  · constructor
    · rintro hmeant ⟨d, hd⟩
      rcases hmeant d ((hok d).mpr (.inr hd)) with hfound | ⟨-, -, hone, -⟩
      · rw [hfound]
        exact oneProperty_singleton d
      · exact hone
    · intro hone d hd
      rcases (hok d).mp hd with hfound | hgetter
      · exact .inl hfound
      · exact .inr ⟨hgetter.1, hgetter.2.1, hone ⟨d, hgetter⟩, hgetter.mem⟩

end

/-- Two classes have a property of the name: the getter of the first is taken, though it is neither
the only match nor do the matches belong to one property. -/
theorem lookUp_guesses_property :
    let sources : List Source := [
      ⟨⟨"P", "A"⟩, .classModule, "Public Property Get Foo(x, y)\nEnd Property\n".toList⟩,
      ⟨⟨"P", "B"⟩, .classModule, "Public Property Get Foo(x, y)\nEnd Property\n".toList⟩]
    ∃ p d, Project.read sources = .ok p ∧ p.index.lookUp none "Foo" none = .ok d ∧
      p.index.lookUpQualified "Foo" none = .ok d ∧
      ¬ Meant none (p.index.matching none "Foo" none) d := by
  intro sources
  have hrun : ∃ p ∈ (Project.read sources).toOption,
      ∃ d ∈ (p.index.lookUp none "Foo" none).toOption,
        ¬ Meant none (p.index.matching none "Foo" none) d := by
    decide +kernel
  obtain ⟨p, hread, d, hd, hnot⟩ := hrun
  have hd := eq_ok_of_mem_toOption hd
  refine ⟨p, d, eq_ok_of_mem_toOption hread, hd, ?_, hnot⟩
  rw [lookUpQualified_of_no_point p.index (by decide) none, hd]

end Index

end VbaRefactor
