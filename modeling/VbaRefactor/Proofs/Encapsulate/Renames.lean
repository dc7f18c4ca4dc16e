import VbaRefactor.Proofs.Edit.Replacing
import VbaRefactor.Proofs.Encapsulate.Planning

/-!
# Uses that an encapsulation renames

An encapsulation renames the uses of its fields in every module. What it changes in a module apart
from the declarations is one refill for each use whose text is not yet the new one.
-/

namespace VbaRefactor

open List ModuleMap

variable {renames : ModuleMap (List Refill)} {k : ModuleName} {p : Project} {plan : PropertyPlan}
  {r : Reference} {refill : Refill}

namespace Encapsulate

/-- The new text of a use is not what stands there. -/
def IsRenamed (p : Project) (m : ModuleName) (inRecord : Bool) (plan : PropertyPlan) (r : Reference) :
    Prop :=
  ∃ user, p.moduleOf r.module = .ok user ∧
    user.source.text.slice (newName m plan inRecord r).1 ≠ (newName m plan inRecord r).2

instance (p : Project) (m : ModuleName) (inRecord : Bool) (plan : PropertyPlan) (r : Reference) :
    Decidable (IsRenamed p m inRecord plan r) :=
  match huser : p.moduleOf r.module with
  | .ok user => decidable_of_iff
      (user.source.text.slice (newName m plan inRecord r).1 ≠ (newName m plan inRecord r).2)
      (by simp [IsRenamed, huser])
  | .error _ => isFalse (by simp [IsRenamed, huser])

/-- The refill that renames a use. -/
def rename (m : ModuleName) (inRecord : Bool) (plan : PropertyPlan) (r : Reference) : Refill :=
  .replacing (newName m plan inRecord r).1 (newName m plan inRecord r).2

section

variable {m : ModuleName} {inRecord : Bool} {table : ModuleMap (List Refill)}
  {uses : List (PropertyPlan × Reference)}

/-- A use is renamed, or its text stays. -/
theorem planRenames_cons (h : planRenames p m inRecord renames ((plan, r) :: uses) = .ok table) :
    (IsRenamed p m inRecord plan r ∧
      planRenames p m inRecord (renames.update r.module [] (· ++ [rename m inRecord plan r])) uses =
        .ok table) ∨
    (¬ IsRenamed p m inRecord plan r ∧ planRenames p m inRecord renames uses = .ok table) := by
  rw [planRenames] at h
  cases huser : p.moduleOf r.module with
  | error e =>
    rw [huser] at h
    cases h
  | ok user =>
    simp only [huser] at h
    split at h
    · rename_i hsame
      refine .inr ⟨?_, h⟩
      rintro ⟨found, hfound, hdiffers⟩
      cases huser.symm.trans hfound
      exact hdiffers hsame
    · rename_i hdiffers
      exact .inl ⟨⟨user, huser, hdiffers⟩, h⟩

theorem mem_update_iff {k' : ModuleName} {added : Refill} :
    refill ∈ ((renames.update k [] (· ++ [added])).get? k').getD [] ↔
      refill ∈ (renames.get? k').getD [] ∨ (k.Same k' ∧ refill = added) := by
  rw [update, get?_insert]
  by_cases hsame : k.Same k'
  · rw [if_pos hsame, get?_congr renames hsame]
    simp [hsame]
  · simp [hsame]

/-- The refills of a list of uses are those that rename them. -/
theorem mem_planRenames_iff (h : planRenames p m inRecord renames uses = .ok table) :
    refill ∈ (table.get? k).getD [] ↔ refill ∈ (renames.get? k).getD [] ∨
      ∃ plan r, (plan, r) ∈ uses ∧ IsRenamed p m inRecord plan r ∧ r.module.Same k ∧
        refill = rename m inRecord plan r := by
  induction uses generalizing renames with
  | nil =>
    cases h
    simp
  | cons use uses ih =>
    obtain ⟨plan, r⟩ := use
    rcases planRenames_cons h with ⟨hrenamed, hrest⟩ | ⟨hsame, hrest⟩
    · rw [ih hrest, mem_update_iff, or_assoc]
      apply or_congr_right
      constructor
      · rintro (⟨hk, rfl⟩ | ⟨plan', r', hmem, hfound⟩)
        · exact ⟨plan, r, mem_cons_self, hrenamed, hk, rfl⟩
        · exact ⟨plan', r', mem_cons_of_mem _ hmem, hfound⟩
      · rintro ⟨plan', r', hmem, hfound⟩
        rcases mem_cons.mp hmem with heq | hmem
        · cases heq
          exact .inl hfound.2
        · exact .inr ⟨plan', r', hmem, hfound⟩
    · rw [ih hrest]
      apply or_congr_right
      constructor
      · rintro ⟨plan', r', hmem, hfound⟩
        exact ⟨plan', r', mem_cons_of_mem _ hmem, hfound⟩
      · rintro ⟨plan', r', hmem, hfound⟩
        rcases mem_cons.mp hmem with heq | hmem
        · cases heq
          exact absurd hfound.1 hsame
        · exact ⟨plan', r', hmem, hfound⟩

end

section

variable {requests : List FieldRequest} {state? : Option RecordState} {indent? : Option Nat}
  {outcome : Outcome}

/-- The uses of the fields, with the plans of these. -/
def usesOf (p : Project) (plans : List PropertyPlan) : List (PropertyPlan × Reference) :=
  plans.flatMap fun plan => (p.index.referencesTo plan.field.id).map (plan, ·)

theorem mem_usesOf_iff {plans : List PropertyPlan} :
    (plan, r) ∈ usesOf p plans ↔ plan ∈ plans ∧ r ∈ p.index.referencesTo plan.field.id := by
  simp [usesOf]

/-- The outcome is committed after the edits of the declarations and the renames of the uses. -/
structure Planning.Carries (planning : Planning p requests state?) (indent? : Option Nat)
    (renames : ModuleMap (List Refill)) (outcome : Outcome) : Prop where
  planned : planRenames p planning.module.source.id state?.isSome [] (usesOf p planning.plans) =
    .ok renames
  queued : ∃ edits q q', moduleEdits p planning.module planning.plans state? indent? = .ok edits ∧
    p.editQueue.queueAll planning.module.source.id edits = (q, none) ∧ p.refill q renames = .ok q' ∧
    outcome = ⟨q'.commit.1, []⟩

theorem Planning.Carries.mem_iff {planning : Planning p requests state?}
    (h : planning.Carries indent? renames outcome) :
    refill ∈ (renames.get? k).getD [] ↔
      ∃ plan ∈ planning.plans, ∃ r ∈ p.index.referencesTo plan.field.id,
        IsRenamed p planning.module.source.id state?.isSome plan r ∧ r.module.Same k ∧
          refill = rename planning.module.source.id state?.isSome plan r := by
  rw [mem_planRenames_iff h.planned]
  simp [mem_usesOf_iff, get?_nil, and_assoc]

theorem exists_carries (h : p.encapsulate requests state? indent? = .ok outcome) :
    (requests = [] ∧ outcome = .unchanged) ∨
      ∃ (planning : Planning p requests state?) (renames : ModuleMap (List Refill)),
        planning.Carries indent? renames outcome := by
  rcases exists_planning h with hnone | ⟨planning, q', hq', houtcome⟩
  · exact .inl hnone
  rw [fillQueue] at hq'
  obtain ⟨edits, hedits, hq'⟩ := bind_eq_ok_iff.mp hq'
  split at hq'
  · rename_i q hqueue
    obtain ⟨_, ⟨⟩, hq'⟩ := bind_eq_ok_iff.mp hq'
    obtain ⟨renames, hrenames, hq'⟩ := bind_eq_ok_iff.mp hq'
    exact .inr ⟨planning, renames, hrenames, edits, q, q', hedits, hqueue, hq', houtcome⟩
  · cases hq'

/-- The module and the plans of a list of requests. -/
def planned? (p : Project) (requests : List FieldRequest) (state? : Option RecordState) :
    Option (ModuleContent × List PropertyPlan) :=
  match fieldsOf p [] requests with
  | .ok (first :: others) =>
    (p.moduleOf first.module).toOption.bind fun m =>
      (planProperties p.index first.module state? [] (requests.zip (first :: others))).toOption.map
        fun plans => (m, plans)
  | _ => none

theorem Planning.planned?_eq (planning : Planning p requests state?) :
    planned? p requests state? = some (planning.module, planning.plans) := by
  simp [planned?, planning.resolved, planning.located, planning.planned, Except.toOption]

end

end Encapsulate

end VbaRefactor
