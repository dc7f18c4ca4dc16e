import Mathlib.Data.List.Nodup
import Mathlib.Data.List.Perm.Subperm
import VbaRefactor.Encapsulate
import VbaRefactor.Proofs.Edit.Weave

/-!
# What an encapsulation plans

An encapsulation that succeeds has found the fields of its requests in one module and has a plan for
each of them: a property, and a storage that is a field of its own or a member of a record. Names are
chosen one after another; each is free among the declarations of the module and differs from those
chosen before it.
-/

namespace VbaRefactor

open List Text Except

variable {d : Declaration} {request : FieldRequest} {found : List Declaration}
  {requests : List FieldRequest} {chosen : List Text} {state? : Option RecordState} {p : Project}
  {α β : Type}

namespace Encapsulate

/-- The fields and plans of an encapsulation that has not been refused. -/
structure Planning (p : Project) (requests : List FieldRequest) (state? : Option RecordState) where
  module : ModuleContent
  first : Declaration
  others : List Declaration
  plans : List PropertyPlan
  resolved : fieldsOf p [] requests = .ok (first :: others)
  located : p.moduleOf first.module = .ok module
  recordFits : ∀ s ∈ state?, checkRecord p.index first.module (first :: others) s = .ok ()
  planned : planProperties p.index first.module state? [] (requests.zip (first :: others)) = .ok plans

def Planning.fields {p : Project} {requests : List FieldRequest} {state? : Option RecordState}
    (planning : Planning p requests state?) : List Declaration := planning.first :: planning.others

section

variable {indent? : Option Nat} {outcome : Outcome}

/-! ## The fields of the requests -/

/-- What is known of a field that was found for a request. -/
structure IsField (p : Project) (request : FieldRequest) (d : Declaration) : Prop where
  found : p.index.get? request.field = some d
  kind : d.kind = .variable
  scope : ∃ owner, p.index.declarationOf? d.module = some owner ∧ d.parent? = some owner.id

/-- The field of the first request is in the module of those found before and is none of them. -/
theorem fieldsOf_cons {fields : List Declaration}
    (h : fieldsOf p found (request :: requests) = .ok fields) :
    ∃ d, IsField p request d ∧ (∀ first ∈ found.head?, first.module.Same d.module) ∧
      (∀ e ∈ found, e.id ≠ d.id) ∧ fieldsOf p (found ++ [d]) requests = .ok fields := by
  rw [fieldsOf, Project.declaration] at h
  cases hget : p.index.get? request.field with
  | none =>
    rw [hget] at h
    cases h
  | some d =>
    simp only [hget] at h
    split at h
    · cases h
    rename_i hkind
    split at h
    · cases h
    rename_i hscope
    split at h
    · cases h
    rename_i hmodule
    split at h
    · cases h
    rename_i hnew
    refine ⟨d, ⟨hget, not_not.mp hkind, ?_⟩, ?_, by simpa using hnew, h⟩
    · cases howner : p.index.declarationOf? d.module with
      | none => simp [howner] at hscope
      | some owner => exact ⟨owner, rfl, by simpa [howner] using hscope⟩
    · intro first hfirst
      rw [hfirst, Option.filter_some] at hmodule
      simpa using hmodule

section

variable {fields : List Declaration} (h : fieldsOf p found requests = .ok fields)

include h

theorem fieldsOf_ok : ∃ more, fields = found ++ more ∧ List.Forall₂ (IsField p) requests more := by
  induction requests generalizing found with
  | nil =>
    cases h
    exact ⟨[], by simp, .nil⟩
  | cons request rest ih =>
    obtain ⟨d, hd, -, -, hrest⟩ := fieldsOf_cons h
    obtain ⟨more, rfl, hmore⟩ := ih hrest
    exact ⟨d :: more, by simp, .cons hd hmore⟩

/-- Every field is asked for once, and all of them are in one module. -/
theorem fieldsOf_apart (hfound : (found.map Declaration.id).Nodup)
    (hmodule : ∀ first ∈ found.head?, ∀ d ∈ found, first.module.Same d.module) :
    (fields.map Declaration.id).Nodup ∧
      ∀ first ∈ fields.head?, ∀ d ∈ fields, first.module.Same d.module := by
  induction requests generalizing found with
  | nil =>
    cases h
    exact ⟨hfound, hmodule⟩
  | cons request rest ih =>
    obtain ⟨d, -, hsame, hnew, hrest⟩ := fieldsOf_cons h
    refine ih hrest ?_ ?_
    · rw [map_append, nodup_append]
      refine ⟨hfound, nodup_singleton _, ?_⟩
      rintro a ha b hb rfl
      obtain ⟨e, he, rfl⟩ := mem_map.mp ha
      exact hnew e he (mem_singleton.mp hb)
    · cases found with
      | nil =>
        rintro first ⟨⟩ e he
        cases mem_singleton.mp he
        exact .refl _
      | cons first found =>
        rintro _ ⟨⟩ e he
        rcases mem_append.mp he with he | he
        · exact hmodule first rfl e he
        · cases mem_singleton.mp he
          exact hsame first rfl

end

/-- An encapsulation that succeeds has plans, and its outcome comes from the edits of these. -/
theorem exists_planning (h : p.encapsulate requests state? indent? = .ok outcome) :
    (requests = [] ∧ outcome = .unchanged) ∨
      ∃ (planning : Planning p requests state?) (q : EditQueue),
        fillQueue p planning.module planning.plans state? indent? = .ok q ∧
          outcome = ⟨q.commit.1, []⟩ := by
  rw [Project.encapsulate] at h
  obtain ⟨fields, hfields, h⟩ := bind_eq_ok_iff.mp h
  cases fields with
  | nil =>
    cases h
    obtain ⟨more, hmore, hrequests⟩ := fieldsOf_ok hfields
    rw [nil_append] at hmore
    subst hmore
    cases hrequests
    exact .inl ⟨rfl, rfl⟩
  | cons first others =>
    right
    obtain ⟨m, hm, h⟩ := bind_eq_ok_iff.mp h
    cases state? with
    | none =>
      obtain ⟨plans, hplans, h⟩ := bind_eq_ok_iff.mp h
      obtain ⟨q, hq, h⟩ := bind_eq_ok_iff.mp h
      cases h
      exact ⟨⟨m, first, others, plans, hfields, hm, by simp, hplans⟩, q, hq, rfl⟩
    | some s =>
      obtain ⟨u, hrecord, h⟩ := bind_eq_ok_iff.mp h
      obtain ⟨plans, hplans, h⟩ := bind_eq_ok_iff.mp h
      obtain ⟨q, hq, h⟩ := bind_eq_ok_iff.mp h
      cases h
      refine ⟨⟨m, first, others, plans, hfields, hm, ?_, hplans⟩, q, hq, rfl⟩
      rintro _ ⟨⟩
      exact hrecord

end

/-! ## The first free number -/

theorem ofNat_injective : Function.Injective ofNat := by
  intro a b h
  have hdigits := congrArg (Nat.ofDigitChars 10 · 0) h
  simpa [ofNat, Nat.ofDigitChars_toDigits] using hdigits

theorem toLower_of_isDigit {c : Char} (h : c.isDigit = true) : c.toLower = c := by
  unfold Char.toLower
  split
  · rename_i hupper
    simp [Char.isDigit, UInt32.le_iff_toNat_le] at h hupper
    omega
  · rfl

theorem fold_ofNat (n : Nat) : (ofNat n).fold = ofNat n := by
  refine (map_congr_left ?_).trans (List.map_id _)
  intro c hc
  exact toLower_of_isDigit (Nat.isDigit_of_mem_toDigits (by decide) (by decide) hc)

section

variable {members : List Declaration}

theorem fold_mem_of_isTaken {name : Text} (h : isTaken members name d = true) :
    name.fold ∈ members.map fun e => e.name.fold := by
  obtain ⟨e, he, hname⟩ := any_eq_true.mp h
  simp only [Bool.and_eq_true, decide_eq_true_eq] at hname
  exact mem_map.mpr ⟨e, he, hname.2⟩

/-- There are more candidates than names that are taken, so the name with a number is free. -/
theorem numberedName_free (members : List Declaration) (chosen : List Text) (d : Declaration) :
    (∃ i, numberedName members chosen d = d.name ++ ofNat (i + 1)) ∧
      isTaken members (numberedName members chosen d) d = false ∧
      (numberedName members chosen d).fold ∉ chosen := by
  generalize hcandidates : ((List.range (members.length + chosen.length + 1)).map fun i =>
    d.name ++ ofNat (i + 1)) = candidates
  cases hfind : candidates.find? fun name => !isTaken members name d && !chosen.contains name.fold with
  | some name =>
    have hname : numberedName members chosen d = name := by
      simp only [numberedName, hcandidates, hfind, Option.getD_some]
    have hmem := mem_of_find?_eq_some hfind
    have hfree := find?_some hfind
    rw [← hcandidates] at hmem
    obtain ⟨i, -, hi⟩ := mem_map.mp hmem
    simp only [Bool.and_eq_true, Bool.not_eq_true', contains_eq_mem, decide_eq_false_iff_not]
      at hfree
    rw [hname]
    exact ⟨⟨i, hi.symm⟩, hfree⟩
  | none =>
    have htaken : candidates.map fold ⊆ (members.map fun e => e.name.fold) ++ chosen := by
      refine forall_mem_map.mpr fun name hname => ?_
      have hnot := find?_eq_none.mp hfind name hname
      cases htaken : isTaken members name d with
      | true => exact mem_append_left _ (fold_mem_of_isTaken htaken)
      | false =>
        refine mem_append_right _ ?_
        simpa [htaken] using hnot
    have hnodup : (candidates.map fold).Nodup := by
      rw [← hcandidates, map_map]
      refine List.Nodup.map ?_ nodup_range
      intro i j hij
      have hdigits : fold (d.name ++ ofNat (i + 1)) = fold (d.name ++ ofNat (j + 1)) := hij
      rw [fold, fold, map_append, map_append] at hdigits
      have := append_cancel_left hdigits
      have := ofNat_injective ((fold_ofNat _).symm.trans (this.trans (fold_ofNat _)))
      omega
    have hlength := (hnodup.subperm htaken).length_le
    rw [← hcandidates] at hlength
    simp only [length_map, length_range, length_append] at hlength
    omega

end

/-! ## The plans -/

/-- The names of a plan at the level of the module. -/
def PropertyPlan.names (inRecord : Bool) (plan : PropertyPlan) : List Text :=
  plan.property :: if inRecord then [] else [plan.backing]

/-- What is known of the plan for a request and its field. -/
structure PlanOf (index : Index) (m : ModuleName) (state? : Option RecordState)
    (request : FieldRequest) (d : Declaration) (plan : PropertyPlan) : Prop where
  field : plan.field = d
  property : plan.property = request.property?.getD (Text.capitalized d.name)
  propertyFree : isTaken (index.moduleMembers m) plan.property d = false
  inRecord : ∀ s ∈ state?, plan.backing = s.access plan.property
  /-- The field keeps its name where the property has another one. -/
  keptName : state? = none → ¬ plan.property.SameName d.name → plan.backing = d.name
  numbered : state? = none → plan.property.SameName d.name →
    (∃ i, plan.backing = d.name ++ Text.ofNat (i + 1)) ∧
      isTaken (index.moduleMembers m) plan.backing d = false
  storage : (plan.storage, plan.typeName) = storageOf index d
  readOnly : plan.readOnly = (request.readOnly || plan.storage = .array)

section

variable {index : Index} {m : ModuleName} {plans : List PropertyPlan}

/-- The plan of the first request. The names it chooses are new and are known to the other plans. -/
theorem planProperties_cons {rest : List (FieldRequest × Declaration)}
    (h : planProperties index m state? chosen ((request, d) :: rest) = .ok plans) :
    ∃ plan more, plans = plan :: more ∧ PlanOf index m state? request d plan ∧
      (∀ folded ∈ (plan.names state?.isSome).map fold, folded ∉ chosen) ∧
      ((plan.names state?.isSome).map fold).Nodup ∧
      planProperties index m state? (chosen ++ (plan.names state?.isSome).map fold) rest =
        .ok more := by
  rw [planProperties] at h
  simp only at h
  generalize hproperty : request.property?.getD (capitalized d.name) = property at h
  split at h
  · cases h
  rename_i hfree
  simp only [Bool.or_eq_true, not_or, Bool.not_eq_true, contains_eq_mem,
    decide_eq_false_iff_not] at hfree
  obtain ⟨⟨hsome, htaken⟩, hnew⟩ := hfree
  cases state? with
  | some s =>
    obtain ⟨⟨backing, chosen'⟩, hbacking, h⟩ := bind_eq_ok_iff.mp h
    obtain ⟨more, hmore, h⟩ := bind_eq_ok_iff.mp h
    cases h
    rw [recordBacking] at hbacking
    split at hbacking
    · cases hbacking
    · cases hbacking
      refine ⟨_, more, rfl, ⟨rfl, hproperty.symm, htaken, ?_, nofun, nofun, rfl, rfl⟩, ?_, ?_, hmore⟩
      · rintro _ ⟨⟩
        rfl
      · simpa [PropertyPlan.names] using hnew
      · simp [PropertyPlan.names]
  | none =>
    simp only at h
    generalize hbacking : (if property.SameName d.name then
      numberedName (index.moduleMembers m) (chosen ++ [property.fold]) d else d.name) = backing at h
    split at h
    · cases h
    rename_i hbackingNew
    obtain ⟨⟨_, _⟩, ⟨⟩, h⟩ := bind_eq_ok_iff.mp h
    obtain ⟨more, hmore, h⟩ := bind_eq_ok_iff.mp h
    cases h
    simp only [contains_eq_mem, mem_append, mem_singleton, decide_eq_true_eq, not_or] at hbackingNew
    refine ⟨_, more, rfl, ⟨rfl, hproperty.symm, htaken, nofun, ?_, ?_, rfl, rfl⟩, ?_, ?_, ?_⟩
    · intro _ hdiffers
      rw [← hbacking, if_neg hdiffers]
    · intro _ hsame
      rw [← hbacking, if_pos hsame]
      obtain ⟨hnumber, hnumberFree, -⟩ :=
        numberedName_free (index.moduleMembers m) (chosen ++ [property.fold]) d
      exact ⟨hnumber, hnumberFree⟩
    · simpa [PropertyPlan.names] using ⟨hnew, hbackingNew.1⟩
    · simpa [PropertyPlan.names, eq_comm] using hbackingNew.2
    · simpa [PropertyPlan.names] using hmore

/-- Every plan is one of a request and its field, and no name is chosen twice. -/
theorem planProperties_ok {pairs : List (FieldRequest × Declaration)}
    (h : planProperties index m state? chosen pairs = .ok plans) (hchosen : chosen.Nodup) :
    List.Forall₂ (fun pair plan => PlanOf index m state? pair.1 pair.2 plan) pairs plans ∧
      (chosen ++ (plans.flatMap (PropertyPlan.names state?.isSome)).map fold).Nodup := by
  induction pairs generalizing chosen plans with
  | nil =>
    cases h
    exact ⟨.nil, by simpa using hchosen⟩
  | cons pair rest ih =>
    obtain ⟨plan, more, rfl, hplan, hnew, hnodup, hmore⟩ := planProperties_cons h
    have hall : (chosen ++ (plan.names state?.isSome).map fold).Nodup :=
      nodup_append.mpr ⟨hchosen, hnodup, by rintro a ha b hb rfl; exact hnew a hb ha⟩
    obtain ⟨hplans, hnames⟩ := ih hmore hall
    refine ⟨.cons hplan hplans, ?_⟩
    rwa [flatMap_cons, map_append, ← append_assoc]

end

section

theorem Planning.isField (planning : Planning p requests state?) :
    List.Forall₂ (IsField p) requests planning.fields := by
  obtain ⟨more, hfields, hmore⟩ := fieldsOf_ok planning.resolved
  rw [nil_append] at hfields
  rwa [Planning.fields, hfields]

theorem exists_of_forall₂ {R : α → β → Prop} {as : List α} {bs : List β} (h : List.Forall₂ R as bs)
    {b : β} (hb : b ∈ bs) : ∃ a ∈ as, R a b := by
  induction h with
  | nil => cases hb
  | cons hhead _ ih =>
    rcases mem_cons.mp hb with rfl | hb
    · exact ⟨_, mem_cons_self, hhead⟩
    · obtain ⟨a, ha, hr⟩ := ih hb
      exact ⟨a, mem_cons_of_mem _ ha, hr⟩

theorem forall₂_of_zip {γ : Type} {A : α → β → Prop} {B : α × β → γ → Prop} {as : List α}
    {bs : List β} {cs : List γ} (hA : List.Forall₂ A as bs) (hB : List.Forall₂ B (as.zip bs) cs) :
    List.Forall₂ (fun a c => ∃ b ∈ bs, A a b ∧ B (a, b) c) as cs := by
  induction hA generalizing cs with
  | nil =>
    cases hB
    exact .nil
  | cons hhead _ ih =>
    cases hB with
    | cons hfirst hrest =>
      refine .cons ⟨_, mem_cons_self, hhead, hfirst⟩ ((ih hrest).imp ?_)
      rintro a c ⟨b, hb, hab⟩
      exact ⟨b, mem_cons_of_mem _ hb, hab⟩

section

variable (planning : Planning p requests state?)

include planning

theorem Planning.map_field : planning.plans.map PropertyPlan.field = planning.fields := by
  obtain ⟨hplans, -⟩ := planProperties_ok planning.planned nodup_nil
  have hfields : List.Forall₂ (fun d plan => d = plan.field)
      ((requests.zip planning.fields).map Prod.snd) planning.plans :=
    forall₂_map_left_iff.mpr (hplans.imp fun _ _ hof => hof.field.symm)
  rw [map_snd_zip (Nat.le_of_eq planning.isField.length_eq.symm)] at hfields
  have hsame := forall₂_map_right_iff.mpr hfields
  rw [forall₂_eq_eq_eq] at hsame
  exact hsame.symm

theorem Planning.plans_ne_nil : planning.plans ≠ [] := by
  intro hnil
  have hfields := planning.map_field
  rw [hnil] at hfields
  cases hfields

/-- No two plans are about one field, and all fields are in the module of the first. -/
theorem Planning.apart :
    (planning.plans.map (·.field.id)).Nodup ∧
      ∀ plan ∈ planning.plans, planning.first.module.Same plan.field.module := by
  obtain ⟨hnodup, hmodule⟩ := fieldsOf_apart planning.resolved nodup_nil (by simp)
  have hids : planning.plans.map (·.field.id) = planning.fields.map Declaration.id := by
    rw [← planning.map_field, map_map]
    rfl
  refine ⟨by rw [hids]; exact hnodup, ?_⟩
  intro plan hplan
  refine hmodule planning.first rfl plan.field ?_
  rw [← Planning.fields, ← planning.map_field]
  exact mem_map_of_mem hplan

/-- The plans are those of the requests and their fields, in order. -/
theorem Planning.plansOf :
    List.Forall₂ (fun request plan => plan.field ∈ planning.fields ∧ IsField p request plan.field ∧
      PlanOf p.index planning.first.module state? request plan.field plan) requests planning.plans := by
  obtain ⟨hplans, -⟩ := planProperties_ok planning.planned nodup_nil
  refine (forall₂_of_zip planning.isField hplans).imp ?_
  rintro request plan ⟨d, hd, hfield, hof⟩
  cases hof.field
  exact ⟨hd, hfield, hof⟩

end

end

/-- What a run on the result of another one shows of both. -/
theorem exists_of_run {γ : Type} {x : Except Error α} {f : α → Except Error β} {g : α → γ} {c : γ}
    (h : (x.bind fun a => (f a).map fun _ => g a).toOption = some c) :
    ∃ a b, x = .ok a ∧ f a = .ok b ∧ g a = c := by
  cases x with
  | error e => cases h
  | ok a =>
    cases hf : f a with
    | error e =>
      simp [Except.bind, hf, Except.map, Except.toOption] at h
    | ok b =>
      simp [Except.bind, hf, Except.map, Except.toOption] at h
      exact ⟨a, b, rfl, hf, h⟩

end Encapsulate

end VbaRefactor
