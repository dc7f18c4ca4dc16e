import VbaRefactor.Proofs.Binding
import VbaRefactor.Proofs.Encapsulate.Renames

/-!
# Names that a local captures

A use that is renamed may start with a name that means a local of the member it stands in, and the
storage of a property may have the name of the parameter that carries the new value. Where the old
name stays, the use is bound as before; the locals of members are not looked at for any other name.
-/

namespace VbaRefactor

open List Text

namespace Encapsulate

/-- The name of the field that holds the storage of a property. -/
def PropertyPlan.storageName (state? : Option RecordState) (plan : PropertyPlan) : Text :=
  match state? with
  | some s => s.fieldName
  | none => plan.backing

/-- The name that the new text of a use starts with, where no qualifier stays in front of it. -/
def leadingName? (m : ModuleName) (state? : Option RecordState) (plan : PropertyPlan)
    (r : Reference) : Option Text :=
  if r.module.Same m then
    if state?.isNone && r.isQualified then none else some (plan.storageName state?)
  else if r.isQualified then none else some plan.property

theorem not_sameName_valueParameter (name : Text) (i : Nat) :
    ¬ (name ++ ofNat (i + 1)).SameName valueParameter := by
  intro hsame
  rw [SameName, fold, map_append] at hsame
  have hlast := congrArg List.getLast? hsame
  have hdigits : (ofNat (i + 1)).map Char.toLower = ofNat (i + 1) := fold_ofNat (i + 1)
  obtain ⟨c, hc⟩ : ∃ c, (ofNat (i + 1)).getLast? = some c := by
    rw [← Option.isSome_iff_exists, getLast?_isSome]
    exact Nat.toDigits_ne_nil
  rw [hdigits, getLast?_append, hc, Option.some_or] at hlast
  have hdigit : c.isDigit = true :=
    Nat.isDigit_of_mem_toDigits (by decide) (by decide) (mem_of_getLast? hc)
  have hletter : c = 's' := Option.some.inj hlast
  rw [hletter] at hdigit
  cases hdigit

/-- No local takes over a use that is renamed, and no value the storage it is assigned to. -/
structure CaptureFree (p : Project) (m : ModuleName) (state? : Option RecordState)
    (plans : List PropertyPlan) : Prop where
  uses : ∀ plan ∈ plans, ∀ r ∈ p.index.referencesTo plan.field.id,
    IsRenamed p m state?.isSome plan r →
      ∀ name ∈ leadingName? m state? plan r, ¬ p.index.IsLocal r.member name
  accessors : ∀ plan ∈ plans, plan.readOnly = false →
    ¬ (plan.storageName state?).SameName valueParameter

instance (p : Project) (m : ModuleName) (state? : Option RecordState) (plans : List PropertyPlan) :
    Decidable (CaptureFree p m state? plans) :=
  decidable_of_iff (_ ∧ _) ⟨fun h => ⟨h.1, h.2⟩, fun h => ⟨h.uses, h.accessors⟩⟩

/-- Where such a use of a field is renamed, no local has this name. -/
def Avoids (p : Project) (m : ModuleName) (inRecord : Bool) (plan : PropertyPlan)
    (such : Reference → Prop) (name : Text) : Prop :=
  ∀ r ∈ p.index.referencesTo plan.field.id, IsRenamed p m inRecord plan r → such r →
    ¬ p.index.IsLocal r.member name

instance (p : Project) (m : ModuleName) (inRecord : Bool) (plan : PropertyPlan)
    (such : Reference → Prop) [DecidablePred such] (name : Text) :
    Decidable (Avoids p m inRecord plan such name) :=
  inferInstanceAs (Decidable (∀ r ∈ p.index.referencesTo plan.field.id, _))

/-- What is not looked at: whether a local has the name with a number that a field gets, the name of
the record or a new name for a property, and whether a field that keeps its name, or the record, is
named as the parameter of the accessors. -/
structure Uncaptured (p : Project) (m : ModuleName) (state? : Option RecordState)
    (plans : List PropertyPlan) : Prop where
  numbered : state? = none → ∀ plan ∈ plans, plan.property.SameName plan.field.name →
    Avoids p m state?.isSome plan (fun r => r.module.Same m ∧ r.isQualified = false) plan.backing
  record : ∀ s ∈ state?, ∀ plan ∈ plans,
    Avoids p m state?.isSome plan (fun r => r.module.Same m ∧
      (r.isQualified = true ∨ ¬ s.fieldName.SameName plan.field.name)) s.fieldName
  elsewhere : ∀ plan ∈ plans, ¬ plan.property.SameName plan.field.name →
    Avoids p m state?.isSome plan (fun r => ¬ r.module.Same m ∧ r.isQualified = false) plan.property
  keptName : state? = none → ∀ plan ∈ plans, ¬ plan.property.SameName plan.field.name →
    plan.readOnly = false → ¬ plan.field.name.SameName valueParameter
  recordName : ∀ s ∈ state?, ∀ plan ∈ plans, plan.readOnly = false →
    ¬ s.fieldName.SameName valueParameter

instance (p : Project) (m : ModuleName) (state? : Option RecordState) (plans : List PropertyPlan) :
    Decidable (Uncaptured p m state? plans) :=
  decidable_of_iff (_ ∧ _ ∧ _ ∧ _ ∧ _) ⟨fun h => ⟨h.1, h.2.1, h.2.2.1, h.2.2.2.1, h.2.2.2.2⟩,
    fun h => ⟨h.numbered, h.record, h.elsewhere, h.keptName, h.recordName⟩⟩

section

variable {sources : List Source} {p : Project} {requests : List FieldRequest}
  {state? : Option RecordState} {m : ModuleName}

/-- A use without qualifier is not captured by a local with the name of the field. -/
theorem Planning.not_isLocal (hread : Project.read sources = .ok p)
    (planning : Planning p requests state?) {plan : PropertyPlan} (hplan : plan ∈ planning.plans)
    {r : Reference} (hr : r ∈ p.index.referencesTo plan.field.id) (hqualified : r.isQualified = false) :
    ¬ p.index.IsLocal r.member plan.field.name := by
  obtain ⟨request, -, -, hfield, -⟩ := exists_of_forall₂ planning.plansOf hplan
  obtain ⟨hmem, hdeclaration⟩ := mem_filter.mp hr
  have hget : p.index.get? r.declaration = some plan.field := by
    rw [of_decide_eq_true hdeclaration, (Project.declared_of_get? hread hfield.found).1, hfield.found]
  exact Project.not_isLocal_of_unqualified hread hmem hqualified hget hfield.kind

theorem Planning.uncaptured_of_captureFree (planning : Planning p requests state?)
    (h : CaptureFree p m state? planning.plans) : Uncaptured p m state? planning.plans := by
  refine ⟨?_, ?_, ?_, ?_, ?_⟩
  · rintro rfl plan hplan - r hr hrenamed ⟨hmodule, hqualified⟩
    apply h.uses plan hplan r hr hrenamed
    simp [leadingName?, hmodule, hqualified, PropertyPlan.storageName]
  · rintro s ⟨⟩ plan hplan r hr hrenamed ⟨hmodule, -⟩
    apply h.uses plan hplan r hr hrenamed
    simp [leadingName?, hmodule, PropertyPlan.storageName]
  · rintro plan hplan - r hr hrenamed ⟨hmodule, hqualified⟩
    apply h.uses plan hplan r hr hrenamed
    simp [leadingName?, hmodule, hqualified]
  · intro hstate plan hplan hdiffers hwritten
    obtain ⟨request, -, -, -, hof⟩ := exists_of_forall₂ planning.plansOf hplan
    have hname := h.accessors plan hplan hwritten
    subst hstate
    rwa [PropertyPlan.storageName, hof.keptName rfl hdiffers] at hname
  · rintro s ⟨⟩ plan hplan hwritten
    exact h.accessors plan hplan hwritten

theorem Planning.uses_of_uncaptured (planning : Planning p requests state?)
    (hread : Project.read sources = .ok p) (h : Uncaptured p m state? planning.plans) :
    ∀ plan ∈ planning.plans, ∀ r ∈ p.index.referencesTo plan.field.id,
      IsRenamed p m state?.isSome plan r →
        ∀ name ∈ leadingName? m state? plan r, ¬ p.index.IsLocal r.member name := by
  intro plan hplan r hr hrenamed name hname
  obtain ⟨request, -, -, -, hof⟩ := exists_of_forall₂ planning.plansOf hplan
  have hbound (hqualified : r.isQualified = false) (hsame : name.SameName plan.field.name) :
      ¬ p.index.IsLocal r.member name :=
    fun hlocal => planning.not_isLocal hread hplan hr hqualified (hlocal.of_sameName hsame)
  unfold leadingName? at hname
  by_cases hmodule : r.module.Same m
  · rw [if_pos hmodule] at hname
    cases state? with
    | none =>
      -- The storage keeps the name of the field, or has a number.
      cases hqualified : r.isQualified with
      | true => simp [hqualified] at hname
      | false =>
        have hbacking : name = plan.backing := by
          simpa [hqualified, PropertyPlan.storageName, eq_comm] using hname
        by_cases hsame : plan.property.SameName plan.field.name
        · rw [hbacking]
          exact h.numbered rfl plan hplan hsame r hr hrenamed ⟨hmodule, hqualified⟩
        · apply hbound hqualified
          rw [hbacking, hof.keptName rfl hsame]
          rfl
    | some s =>
      have hfield : name = s.fieldName := by
        simpa [PropertyPlan.storageName, eq_comm] using hname
      by_cases hsafe : r.isQualified = true ∨ ¬ s.fieldName.SameName plan.field.name
      · rw [hfield]
        exact h.record s rfl plan hplan r hr hrenamed ⟨hmodule, hsafe⟩
      · simp only [not_or, not_not, Bool.not_eq_true] at hsafe
        exact hbound hsafe.1 (hfield ▸ hsafe.2)
  · rw [if_neg hmodule] at hname
    cases hqualified : r.isQualified with
    | true => simp [hqualified] at hname
    | false =>
      have hproperty : name = plan.property := by simpa [hqualified, eq_comm] using hname
      by_cases hsame : plan.property.SameName plan.field.name
      · exact hbound hqualified (hproperty ▸ hsame)
      · rw [hproperty]
        exact h.elsewhere plan hplan hsame r hr hrenamed ⟨hmodule, hqualified⟩

theorem Planning.accessors_of_uncaptured (planning : Planning p requests state?)
    (h : Uncaptured p m state? planning.plans) :
    ∀ plan ∈ planning.plans, plan.readOnly = false →
      ¬ (plan.storageName state?).SameName valueParameter := by
  intro plan hplan hwritten
  obtain ⟨request, -, -, -, hof⟩ := exists_of_forall₂ planning.plansOf hplan
  cases state? with
  | none =>
    rw [PropertyPlan.storageName]
    by_cases hsame : plan.property.SameName plan.field.name
    · obtain ⟨i, hi⟩ := (hof.numbered rfl hsame).1
      rw [hi]
      exact not_sameName_valueParameter _ i
    · rw [hof.keptName rfl hsame]
      exact h.keptName rfl plan hplan hsame hwritten
  | some s => exact h.recordName s rfl plan hplan hwritten

/-- A successful encapsulation is free of captures if and only if it is where it does not look. -/
theorem encapsulate_captureFree_iff (hread : Project.read sources = .ok p) {indent? : Option Nat}
    {outcome : Outcome} (h : p.encapsulate requests state? indent? = .ok outcome) :
    (requests = [] ∧ outcome = .unchanged) ∨
      ∃ (planning : Planning p requests state?) (renames : ModuleMap (List Refill)),
        planning.Carries indent? renames outcome ∧
        (CaptureFree p planning.module.source.id state? planning.plans ↔
          Uncaptured p planning.module.source.id state? planning.plans) := by
  rcases exists_carries h with hnone | ⟨planning, renames, hcarries⟩
  · exact .inl hnone
  · exact .inr ⟨planning, renames, hcarries, planning.uncaptured_of_captureFree,
      fun hfree => ⟨planning.uses_of_uncaptured hread hfree, planning.accessors_of_uncaptured hfree⟩⟩

end

/-- A field is used in two modules under another name than its property gets. -/
theorem encapsulate_captureFree_elsewhere :
    let a : Source := ⟨⟨"P", "A"⟩, .standard,
      "Public fizz As Integer\n\nPublic Sub Own()\n    fizz = 1\nEnd Sub\n".toList⟩
    let b : Source := ⟨⟨"P", "B"⟩, .standard,
      "Public Sub Other()\n    Dim buzz As Integer\n    fizz = 2\nEnd Sub\n".toList⟩
    let requests : List FieldRequest := [⟨1, false, some "Count"⟩]
    ∃ p outcome, Project.read [a, b] = .ok p ∧ p.encapsulate requests none none = .ok outcome ∧
      ∃ (planning : Planning p requests none) (renames : ModuleMap (List Refill)),
        planning.Carries none renames outcome ∧
        CaptureFree p planning.module.source.id none planning.plans := by
  intro a b requests
  have hrun : ((Project.read [a, b]).bind fun p =>
      (p.encapsulate requests none none).map fun _ =>
        (planned? p requests none).map fun found =>
          decide (Uncaptured p found.1.source.id none found.2)).toOption = some (some true) := by
    decide +kernel
  obtain ⟨p, outcome, hread, hok, hfree⟩ := exists_of_run hrun
  obtain ⟨hnone, -⟩ | ⟨planning, renames, hcarries, hiff⟩ := encapsulate_captureFree_iff hread hok
  · exact absurd hnone (List.cons_ne_nil _ _)
  · refine ⟨p, outcome, hread, hok, planning, renames, hcarries, hiff.mpr ?_⟩
    rw [planning.planned?_eq] at hfree
    simpa using hfree

/-- A local with the name that the storage of a field gets takes over the uses of the field. -/
theorem captureFree_fails_numbered_local :
    let m : ModuleName := ⟨"P", "Class1"⟩
    let source : Source := ⟨m, .classModule,
      "Public fizz As Integer\n\nPublic Sub Test()\n    Dim fizz1 As Integer\n    fizz = 1\nEnd Sub\n".toList⟩
    let requests : List FieldRequest := [⟨1, false, none⟩]
    ∃ p outcome, Project.read [source] = .ok p ∧ p.encapsulate requests none none = .ok outcome ∧
      ∀ planning : Planning p requests none,
        ¬ CaptureFree p planning.module.source.id none planning.plans := by
  intro m source requests
  have hrun : ((Project.read [source]).bind fun p =>
      (p.encapsulate requests none none).map fun _ =>
        (planned? p requests none).map fun found =>
          decide (CaptureFree p found.1.source.id none found.2)).toOption = some (some false) := by
    decide +kernel
  obtain ⟨p, outcome, hread, hok, hcaptured⟩ := exists_of_run hrun
  refine ⟨p, outcome, hread, hok, ?_⟩
  intro planning
  rw [planning.planned?_eq] at hcaptured
  simpa using hcaptured

end Encapsulate

end VbaRefactor
