import VbaRefactor.Proofs.Encapsulate.Planning

/-!
# Names that an encapsulation introduces

Properties, their fields and a new record get names at the level of the module. The names of properties
and fields are kept apart from each other, and all names but one kind from the declarations that stay.
What is not looked at: the names of a new record against each other and against the properties, and
the name of a field that it keeps, which another declaration of the module may have too.
-/

namespace VbaRefactor

open List

/-- The names of a record that is not there yet. -/
def RecordState.newNames (s : RecordState) : List Text :=
  if s.existing?.isNone then [s.typeName, s.fieldName] else []

namespace Encapsulate

section

variable {p : Project} {requests : List FieldRequest} {state? : Option RecordState}

/-- The names that are introduced at the level of the module. -/
def Planning.names (planning : Planning p requests state?) : List Text :=
  planning.plans.flatMap (PropertyPlan.names state?.isSome)
    ++ state?.toList.flatMap RecordState.newNames

/-- No declaration of the module but the encapsulated fields has this name. -/
def Planning.IsFree (planning : Planning p requests state?) (name : Text) : Prop :=
  ∀ d ∈ p.index.declaredIn planning.first.module name, ∃ f ∈ planning.fields, f.id = d.id

/-- The new names differ from each other, and from those of all declarations that remain. -/
structure Planning.NamesApart (planning : Planning p requests state?) : Prop where
  distinct : planning.names.Pairwise fun a b => ¬ a.SameName b
  free : ∀ name ∈ planning.names, planning.IsFree name

theorem pairwise_sameName_iff {names : List Text} :
    (names.Pairwise fun a b => ¬ a.SameName b) ↔ (names.map Text.fold).Nodup := by
  rw [List.Nodup, pairwise_map]
  rfl

section

variable {name : Text} {plan : PropertyPlan} (planning : Planning p requests state?)

include planning

theorem Planning.nodup_names :
    ((planning.plans.flatMap (PropertyPlan.names state?.isSome)).map Text.fold).Nodup := by
  simpa using (planProperties_ok planning.planned nodup_nil).2

/-- A name that is not taken from a field is free. -/
theorem Planning.isFree_of_isTaken {field : Declaration} (hfield : field ∈ planning.fields)
    (h : isTaken (p.index.moduleMembers planning.first.module) name field = false) :
    planning.IsFree name := by
  intro d hd
  obtain ⟨request, -, hfirst⟩ := exists_of_forall₂ planning.isField mem_cons_self
  obtain ⟨owner, howner, -⟩ := hfirst.scope
  have hmember : d ∈ p.index.moduleMembers planning.first.module ∧ d.name.SameName name := by
    simp only [Index.declaredIn, Index.find, howner, mem_filter, Bool.and_eq_true,
      decide_eq_true_eq] at hd
    rw [Index.moduleMembers, howner]
    exact ⟨mem_filter.mpr ⟨hd.1.1, by simpa using hd.2.2⟩, hd.1.2⟩
  refine ⟨field, hfield, ?_⟩
  have hnot := any_eq_false.mp h d hmember.1
  simp only [Bool.and_eq_true, decide_eq_true_eq, not_and] at hnot
  by_contra hne
  exact hnot (Ne.symm hne) hmember.2

theorem Planning.isFree_property (hplan : plan ∈ planning.plans) :
    planning.IsFree plan.property := by
  obtain ⟨request, -, hfield, -, hof⟩ := exists_of_forall₂ planning.plansOf hplan
  exact planning.isFree_of_isTaken hfield hof.propertyFree

/-- The field behind a property is free under its name, or has kept it. -/
theorem Planning.isFree_backing (hstate : state? = none) (hplan : plan ∈ planning.plans) :
    (plan.property.SameName plan.field.name ∧ planning.IsFree plan.backing) ∨
      (¬ plan.property.SameName plan.field.name ∧ plan.backing = plan.field.name) := by
  obtain ⟨request, -, hfield, -, hof⟩ := exists_of_forall₂ planning.plansOf hplan
  by_cases hsame : plan.property.SameName plan.field.name
  · exact .inl ⟨hsame, planning.isFree_of_isTaken hfield (hof.numbered hstate hsame).2⟩
  · exact .inr ⟨hsame, hof.keptName hstate hsame⟩

/-- A new record takes no name that a remaining declaration has. -/
theorem Planning.isFree_newNames {s : RecordState} (hs : s ∈ state?) (hname : name ∈ s.newNames) :
    planning.IsFree name := by
  have hcheck := planning.recordFits s hs
  have htaken {name : Text} (h : ((p.index.declaredIn planning.first.module name).any fun d =>
      !(planning.first :: planning.others).any (·.id = d.id)) = false) : planning.IsFree name := by
    intro d hd
    have hany := any_eq_false.mp h d hd
    simp only [Bool.not_eq_true', Bool.not_eq_false, any_eq_true, decide_eq_true_eq] at hany
    exact hany
  rw [RecordState.newNames] at hname
  split at hname
  · rename_i hnew
    rw [Option.isNone_iff_eq_none] at hnew
    rw [checkRecord, hnew] at hcheck
    simp only at hcheck
    split at hcheck
    · cases hcheck
    split at hcheck
    · cases hcheck
    rename_i htype
    split at hcheck
    · cases hcheck
    · rename_i hfield
      simp only [mem_cons, not_mem_nil, or_false] at hname
      rcases hname with rfl | rfl
      · exact htaken (Bool.eq_false_iff.mpr htype)
      · exact htaken (Bool.eq_false_iff.mpr hfield)
  · cases hname

end

/-- What the choice of names does not look at: a new record against itself and against the properties,
and a field that keeps its name against a declaration with the same name. -/
structure Planning.Unchecked (planning : Planning p requests state?) : Prop where
  record : ∀ s ∈ state?, s.newNames.Pairwise fun a b => ¬ a.SameName b
  properties : ∀ s ∈ state?, ∀ plan ∈ planning.plans, ∀ name ∈ s.newNames,
    ¬ plan.property.SameName name
  keptNames : state? = none → ∀ plan ∈ planning.plans, ¬ plan.property.SameName plan.field.name →
    planning.IsFree plan.field.name

theorem Planning.mem_names_iff (planning : Planning p requests state?) (name : Text) :
    name ∈ planning.names ↔ (∃ plan ∈ planning.plans, name = plan.property) ∨
      (state? = none ∧ ∃ plan ∈ planning.plans, name = plan.backing) ∨
      ∃ s ∈ state?, name ∈ s.newNames := by
  cases state? with
  | none => simp [Planning.names, PropertyPlan.names, exists_or, and_or_left]
  | some s => simp [Planning.names, PropertyPlan.names, eq_comm]

/-- The new names are apart if and only if they are where nothing looks at them. -/
theorem Planning.namesApart_iff (planning : Planning p requests state?) :
    planning.NamesApart ↔ planning.Unchecked := by
  constructor
  · rintro ⟨hdistinct, hfree⟩
    rw [Planning.names, pairwise_append] at hdistinct
    obtain ⟨-, hrecord, hacross⟩ := hdistinct
    refine ⟨?_, ?_, ?_⟩
    · rintro s ⟨⟩
      simpa using hrecord
    · rintro s ⟨⟩ plan hplan name hname
      exact hacross plan.property
        (mem_flatMap.mpr ⟨plan, hplan, mem_cons_self⟩) name (by simpa using hname)
    · intro hstate plan hplan hdiffers
      obtain ⟨hsame, -⟩ | ⟨-, hbacking⟩ := planning.isFree_backing hstate hplan
      · exact absurd hsame hdiffers
      · rw [← hbacking]
        exact hfree _ ((planning.mem_names_iff _).mpr (.inr (.inl ⟨hstate, plan, hplan, rfl⟩)))
  · rintro ⟨hrecord, hproperties, hkept⟩
    refine ⟨?_, ?_⟩
    · rw [Planning.names, pairwise_append]
      refine ⟨pairwise_sameName_iff.mpr planning.nodup_names, ?_, ?_⟩
      · cases state? with
        | none => simp
        | some s => simpa using hrecord s rfl
      · intro a ha b hb
        cases state? with
        | none => cases hb
        | some s =>
          obtain ⟨plan, hplan, ha⟩ := mem_flatMap.mp ha
          cases mem_singleton.mp ha
          exact hproperties s rfl plan hplan b (by simpa using hb)
    · intro name hname
      obtain ⟨plan, hplan, rfl⟩ | ⟨hstate, plan, hplan, rfl⟩ | ⟨s, hs, hname⟩ :=
        (planning.mem_names_iff name).mp hname
      · exact planning.isFree_property hplan
      · obtain ⟨-, hfree⟩ | ⟨hdiffers, hbacking⟩ := planning.isFree_backing hstate hplan
        · exact hfree
        · rw [hbacking]
          exact hkept hstate plan hplan hdiffers
      · exact planning.isFree_newNames hs hname

/-- The names of a successful encapsulation are apart if and only if those that it does not look at
are. -/
theorem encapsulate_namesApart_iff {indent? : Option Nat} {outcome : Outcome}
    (h : p.encapsulate requests state? indent? = .ok outcome) :
    (requests = [] ∧ outcome = .unchanged) ∨
      ∃ (planning : Planning p requests state?) (q : EditQueue),
        fillQueue p planning.module planning.plans state? indent? = .ok q ∧
          outcome = ⟨q.commit.1, []⟩ ∧ (planning.NamesApart ↔ planning.Unchecked) := by
  rcases exists_planning h with hnone | ⟨planning, q, hq, houtcome⟩
  · exact .inl hnone
  · exact .inr ⟨planning, q, hq, houtcome, planning.namesApart_iff⟩

end

/-- Two fields go into a new record, under names of their own. -/
theorem encapsulate_namesApart_record :
    let m : ModuleName := ⟨"P", "Class1"⟩
    let source : Source := ⟨m, .classModule, "Public fizz As Long, buzz\n".toList⟩
    let requests : List FieldRequest := [⟨1, false, some "Fizz"⟩, ⟨2, true, some "Value"⟩]
    ∃ p outcome, Project.read [source] = .ok p ∧
      p.encapsulate requests (some (.new m)) none = .ok outcome ∧
      ∃ (planning : Planning p requests (some (.new m))) (q : EditQueue),
        fillQueue p planning.module planning.plans (some (.new m)) none = .ok q ∧
          outcome = ⟨q.commit.1, []⟩ ∧ planning.NamesApart := by
  intro m source requests
  have hrun : ((Project.read [source]).bind fun p =>
      (p.encapsulate requests (some (.new m)) none).map fun _ => ()).toOption = some () := by
    decide +kernel
  obtain ⟨p, outcome, hread, hok, -⟩ := exists_of_run hrun
  obtain ⟨hnone, -⟩ | ⟨planning, q, hq, houtcome, hiff⟩ := encapsulate_namesApart_iff hok
  · exact absurd hnone (List.cons_ne_nil _ _)
  · refine ⟨p, outcome, hread, hok, planning, q, hq, houtcome, hiff.mpr ⟨?_, ?_, nofun⟩⟩
    · rintro s ⟨⟩
      decide
    · rintro s ⟨⟩ plan hplan
      obtain ⟨request, hrequest, -, -, hof⟩ := exists_of_forall₂ planning.plansOf hplan
      rw [hof.property]
      simp only [requests, List.mem_cons, List.not_mem_nil, or_false] at hrequest
      rcases hrequest with rfl | rfl
      · rw [Option.getD_some]
        decide
      · rw [Option.getD_some]
        decide

/-- A field `this` that goes into a new record gives its name to a property, and the record takes the
same name for its own field. -/
theorem namesApart_fails_record_field :
    let m : ModuleName := ⟨"P", "Class1"⟩
    let source : Source := ⟨m, .classModule, "Public this As Long\n".toList⟩
    ∃ p outcome, Project.read [source] = .ok p ∧
      p.encapsulate [⟨1, false, none⟩] (some (.new m)) none = .ok outcome ∧
      ∀ planning : Planning p [⟨1, false, none⟩] (some (.new m)), ¬ planning.NamesApart := by
  intro m source
  have hrun : ((Project.read [source]).bind fun p =>
      (p.encapsulate [⟨1, false, none⟩] (some (.new m)) none).map fun _ =>
        (p.index.get? 1).map Declaration.name).toOption = some (some "this".toList) := by
    decide +kernel
  obtain ⟨p, outcome, hread, hok, hname⟩ := exists_of_run hrun
  refine ⟨p, outcome, hread, hok, ?_⟩
  intro planning hapart
  obtain ⟨plan, hplan, -, hfield, hof⟩ :=
    exists_of_forall₂ planning.plansOf.flip (List.mem_singleton_self _)
  rw [hfield.found, Option.map_some, Option.some.injEq] at hname
  refine (planning.namesApart_iff.mp hapart).properties _ rfl plan hplan "this" (by decide) ?_
  rw [hof.property, Option.getD_none, hname]
  decide

end Encapsulate

end VbaRefactor
