import VbaRefactor.Proofs.Binding
import VbaRefactor.Proofs.Encapsulate.Renames
import VbaRefactor.Proofs.References

/-!
# Objects through which fields are used

A use of a field may name the object that it belongs to in front of the field. The object stays where
only the name is replaced: without a record, and in other modules. In the module of a record the whole
expression is replaced, so that every use becomes one of the current object.
-/

namespace VbaRefactor

open Refill

namespace Encapsulate

/-- After all renames, the expression of a use starts with what its object expression has become. -/
def KeepsObject (text : Text) (renames : List Refill) (r : Reference) : Prop :=
  ∃ object expression,
    Refill.render text (Refill.sorted renames) [] ⟨r.qualified.span.start, r.selection.span.start⟩ =
      .ok object ∧
    Refill.render text (Refill.sorted renames) [] r.qualified.span = .ok expression ∧
    object <+: expression

instance (text : Text) (renames : List Refill) (r : Reference) :
    Decidable (KeepsObject text renames r) :=
  match hobject : Refill.render text (Refill.sorted renames) []
      ⟨r.qualified.span.start, r.selection.span.start⟩,
    hexpression : Refill.render text (Refill.sorted renames) [] r.qualified.span with
  | .ok object, .ok expression =>
    decidable_of_iff (object <+: expression) (by simp [KeepsObject, hobject, hexpression])
  | .error _, _ => isFalse (by simp [KeepsObject, hobject])
  | .ok _, .error _ => isFalse (by simp [KeepsObject, hexpression])

section

variable {sources : List Source} {p : Project} {requests : List FieldRequest}
  {state? : Option RecordState} {indent? : Option Nat} {outcome : Outcome}

/-- Every rename replaces a part of the text of its module. -/
theorem replaces_rename {text : Text} {r : Reference} (h : r.StandsIn text) (m : ModuleName)
    (inRecord : Bool) (plan : PropertyPlan) : (rename m inRecord plan r).Replaces text := by
  have hsome := h.some
  have hle := h.le
  have hstop := h.stop
  have hselection (new : Text) : (replacing r.selection.span new).Replaces text :=
    ⟨⟨new, rfl⟩, hsome, h.nameBound, h.stopBound⟩
  have hqualified (new : Text) : (replacing r.qualified.span new).Replaces text := by
    refine ⟨⟨new, rfl⟩, ?_, h.startBound, ?_⟩
    · show r.qualified.span.start < r.qualified.span.stop
      omega
    · show text.IsBoundary r.qualified.span.stop
      rw [hstop]
      exact h.stopBound
  rw [rename, newName]
  split
  · split
    · exact hqualified _
    · exact hselection _
  · exact hselection _

section

variable {k : ModuleName} {planning : Planning p requests state?} {r : Reference}
  (hnames : sources.Pairwise fun a b => ¬ a.id.Same b.id) (hread : Project.read sources = .ok p)
  {user : ModuleContent} {renames : ModuleMap (List Refill)}

include hnames hread

theorem standsIn_of_moduleOf (hr : r ∈ p.index.references) (hk : r.module.Same k)
    (huser : p.moduleOf k = .ok user) : r.StandsIn user.source.text := by
  obtain ⟨s, hs, hmodule, hstands⟩ := Project.standsIn_of_mem_references hread hr
  have hget : p.modules.get? k = some user := by
    rw [Project.moduleOf] at huser
    split at huser
    · cases huser
      assumption
    · cases huser
  obtain ⟨huser, hsame⟩ := (Project.get?_modules_iff hnames hread k user.source).mp ⟨user, hget, rfl⟩
  rw [hmodule] at hk
  rwa [Source.eq_of_same hnames huser hs (hsame.trans hk.symm)]

theorem Planning.Carries.replaces (h : planning.Carries indent? renames outcome)
    (huser : p.moduleOf k = .ok user) :
    ∀ refill ∈ (renames.get? k).getD [], refill.Replaces user.source.text := by
  intro refill hrefill
  obtain ⟨plan, -, r, hr, -, hk, rfl⟩ := h.mem_iff.mp hrefill
  exact replaces_rename (standsIn_of_moduleOf hnames hread (List.mem_of_mem_filter hr) hk huser) _ _ _

/-- Without a record, and in other modules, only names are replaced, and every use keeps its object. -/
theorem Planning.Carries.keepsObject (h : planning.Carries indent? renames outcome)
    (hr : r ∈ p.index.references) (huser : p.moduleOf r.module = .ok user)
    (houtside : state? = none ∨ ¬ r.module.Same planning.module.source.id) :
    KeepsObject user.source.text ((renames.get? r.module).getD []) r := by
  have hstands := standsIn_of_moduleOf hnames hread hr (.refl _) huser
  obtain ⟨object, name, hobject, -, hexpression⟩ := render_split
    (h.replaces hnames hread huser) hstands.startBound hstands.nameBound hstands.stopBound hstands.le
    (Nat.le_of_lt hstands.some) (by
      intro refill hrefill _
      obtain ⟨plan, -, r', hr', -, hk, rfl⟩ := h.mem_iff.mp hrefill
      have hselection : (newName planning.module.source.id plan state?.isSome r').1 =
          r'.selection.span := by
        rcases houtside with rfl | hother
        · unfold newName
          split <;> rfl
        · have : ¬ r'.module.Same planning.module.source.id :=
            fun hsame => hother (hk.symm.trans hsame)
          simp [newName, this]
      -- The names are tokens, so that they are the same or apart.
      have hstands' := standsIn_of_moduleOf hnames hread (List.mem_of_mem_filter hr') hk huser
      obtain ⟨t, ht, hspan⟩ := hstands.name
      obtain ⟨t', ht', hspan'⟩ := hstands'.name
      have hsome := hstands.some
      have hsome' := hstands'.some
      rw [rename, replacing, hselection, hspan', hspan]
      rw [hspan] at hsome
      rw [hspan'] at hsome'
      simp only [Token.span] at hsome hsome' ⊢
      rcases Statement.apart_of_mem_tokenize ht ht' with rfl | hbehind | hbefore
      · exact .inr (Nat.le_refl _)
      · exact .inr (by omega)
      · exact .inl hbefore)
  refine ⟨object, object ++ name, hobject, ?_, List.prefix_append _ _⟩
  rw [← hstands.stop] at hexpression
  exact hexpression

/-- A reference of a module is known by where its expression stands. -/
theorem eq_of_qualified_eq {r' : Reference} (hr : r ∈ p.index.references)
    (hr' : r' ∈ p.index.references) (hk : r.module.Same k) (hk' : r'.module.Same k)
    (huser : p.moduleOf k = .ok user) (heq : r.qualified.span = r'.qualified.span) : r = r' := by
  have hstands := standsIn_of_moduleOf hnames hread hr hk huser
  have hstands' := standsIn_of_moduleOf hnames hread hr' hk' huser
  have hselection : r.selection.span = r'.selection.span := by
    obtain ⟨t, ht, hspan⟩ := hstands.name
    obtain ⟨t', ht', hspan'⟩ := hstands'.name
    have hstop : r.selection.span.stop = r'.selection.span.stop := by
      rw [← hstands.stop, ← hstands'.stop, heq]
    have hsome := hstands.some
    have hsome' := hstands'.some
    rw [hspan, hspan'] at hstop
    rw [hspan] at hsome
    rw [hspan'] at hsome'
    simp only [Token.span] at hsome hsome' hstop
    rcases Statement.apart_of_mem_tokenize ht ht' with rfl | hbehind | hbefore
    · rw [hspan, hspan']
    · omega
    · omega
  by_contra hne
  have : Std.Symm fun r r' : Reference => r.module.Same r'.module → r.Apart r' :=
    ⟨fun _ _ h hsame => (h hsame.symm).symm⟩
  have hapart := (Project.pairwise_references hnames hread).forall hr hr' hne (hk.trans hk'.symm)
  exact hapart.1 hselection

/-- In the module of a record, the whole expression of a use that is renamed becomes an access to the
member of the record that takes the place of its field. -/
theorem Planning.Carries.render_expression {s : RecordState}
    {planning : Planning p requests (some s)} (h : planning.Carries indent? renames outcome)
    {plan : PropertyPlan} (hplan : plan ∈ planning.plans)
    (hr : r ∈ p.index.referencesTo plan.field.id)
    (hrenamed : IsRenamed p planning.module.source.id true plan r)
    (hinside : r.module.Same planning.module.source.id) (huser : p.moduleOf r.module = .ok user) :
    render user.source.text (sorted ((renames.get? r.module).getD [])) [] r.qualified.span =
      .ok (s.access plan.property) := by
  have hmem := h.mem_iff.mpr ⟨plan, hplan, r, hr, hrenamed, .refl r.module, rfl⟩
  have hregion : (rename planning.module.source.id true plan r).region = r.qualified.span := by
    simp [rename, replacing, newName, hinside]
  obtain ⟨new, hnew, hrender⟩ := render_region (h.replaces hnames hread huser) hmem
  obtain ⟨plan', hplan', r', hr', -, hk, heq⟩ := h.mem_iff.mp hnew
  have hsame : r'.module.Same planning.module.source.id := hk.trans hinside
  have hnew : new = plan'.backing := by
    simpa [rename, replacing, newName, hsame] using congrArg fills heq
  have hqualified : r.qualified.span = r'.qualified.span := by
    rw [← hregion]
    simpa [rename, replacing, newName, hsame] using congrArg region heq
  -- The use is the only one at its place, and it is a use of one field.
  obtain rfl := eq_of_qualified_eq hnames hread (List.mem_of_mem_filter hr)
    (List.mem_of_mem_filter hr') (.refl r.module) hk huser hqualified
  have hfield : plan.field.id = plan'.field.id :=
    (of_decide_eq_true (List.mem_filter.mp hr).2).symm.trans
      (of_decide_eq_true (List.mem_filter.mp hr').2)
  obtain rfl := List.inj_on_of_nodup_map planning.apart.1 hplan hplan' hfield
  obtain ⟨request, -, -, -, hof⟩ := exists_of_forall₂ planning.plansOf hplan
  rw [← hof.inRecord s rfl, ← hnew, ← hregion]
  exact hrender

end

/-- In a successful encapsulation, a use keeps its object without a record and in other modules. In the
module of a record it becomes an access to the member of its field in the record of the current
object. -/
theorem encapsulate_objects (hnames : sources.Pairwise fun a b => ¬ a.id.Same b.id)
    (hread : Project.read sources = .ok p)
    (h : p.encapsulate requests state? indent? = .ok outcome) :
    (requests = [] ∧ outcome = .unchanged) ∨
      ∃ (planning : Planning p requests state?) (renames : ModuleMap (List Refill)),
        planning.Carries indent? renames outcome ∧
        ∀ plan ∈ planning.plans, ∀ r ∈ p.index.referencesTo plan.field.id,
          ∀ user, p.moduleOf r.module = .ok user →
            ((state? = none ∨ ¬ r.module.Same planning.module.source.id) →
              KeepsObject user.source.text ((renames.get? r.module).getD []) r) ∧
            ∀ s ∈ state?, r.module.Same planning.module.source.id →
              IsRenamed p planning.module.source.id true plan r →
              Refill.render user.source.text (Refill.sorted ((renames.get? r.module).getD [])) []
                r.qualified.span = .ok (s.access plan.property) := by
  rcases exists_carries h with hnone | ⟨planning, renames, hcarries⟩
  · exact .inl hnone
  · refine .inr ⟨planning, renames, hcarries, ?_⟩
    intro plan hplan r hr user huser
    refine ⟨hcarries.keepsObject hnames hread (List.mem_of_mem_filter hr) huser, ?_⟩
    rintro s ⟨⟩ hinside hrenamed
    exact hcarries.render_expression hnames hread hplan hr hrenamed hinside huser

end

/-- A field of another object is used in the class, and its storage gets a name of its own. -/
theorem encapsulate_objects_numbered :
    let source : Source := ⟨⟨"P", "Class1"⟩, .classModule,
      "Public fizz As Integer\n\nPublic Sub Reset(other As Class1)\n    other.fizz = 1\nEnd Sub\n".toList⟩
    let requests : List FieldRequest := [⟨1, false, none⟩]
    ∃ p outcome, Project.read [source] = .ok p ∧ p.encapsulate requests none none = .ok outcome ∧
      ∃ (planning : Planning p requests none) (renames : ModuleMap (List Refill)),
        planning.Carries none renames outcome ∧
        ∃ plan ∈ planning.plans, ∃ r ∈ p.index.referencesTo plan.field.id, r.isQualified = true ∧
          ∀ user, p.moduleOf r.module = .ok user →
            KeepsObject user.source.text ((renames.get? r.module).getD []) r := by
  intro source requests
  have hrun : ((Project.read [source]).bind fun p =>
      (p.encapsulate requests none none).map fun _ =>
        (planned? p requests none).map fun found => decide (∃ plan ∈ found.2,
          ∃ r ∈ p.index.referencesTo plan.field.id, r.isQualified = true)).toOption =
      some (some true) := by
    decide +kernel
  obtain ⟨p, outcome, hread, hok, huse⟩ := exists_of_run hrun
  obtain ⟨hnone, -⟩ | ⟨planning, renames, hcarries, hobjects⟩ :=
    encapsulate_objects (List.pairwise_singleton _ _) hread hok
  · exact absurd hnone (List.cons_ne_nil _ _)
  · rw [planning.planned?_eq, Option.map_some, Option.some.injEq, decide_eq_true_eq] at huse
    obtain ⟨plan, hplan, r, hr, hqualified⟩ := huse
    refine ⟨p, outcome, hread, hok, planning, renames, hcarries, plan, hplan, r, hr, hqualified, ?_⟩
    intro user huser
    exact (hobjects plan hplan r hr user huser).1 (.inl rfl)

/-- With a record, the field of another object becomes that of the current one. -/
theorem keepsObject_fails_record :
    let m : ModuleName := ⟨"P", "Class1"⟩
    let source : Source := ⟨m, .classModule,
      "Public fizz As Integer\n\nPublic Sub Reset(other As Class1)\n    other.fizz = 1\nEnd Sub\n".toList⟩
    let requests : List FieldRequest := [⟨1, false, none⟩]
    ∃ p outcome, Project.read [source] = .ok p ∧
      p.encapsulate requests (some (.new m)) none = .ok outcome ∧
      ∀ (planning : Planning p requests (some (.new m))) (renames : ModuleMap (List Refill)),
        planning.Carries none renames outcome →
        ∃ plan ∈ planning.plans, ∃ r ∈ p.index.referencesTo plan.field.id,
          source.text.slice ⟨r.qualified.span.start, r.selection.span.start⟩ = "other." ∧
            ¬ KeepsObject source.text ((renames.get? r.module).getD []) r := by
  intro m source requests
  have hrun : ((Project.read [source]).bind fun p =>
      (p.encapsulate requests (some (.new m)) none).map fun _ =>
        (planned? p requests (some (.new m))).bind fun found =>
          (planRenames p found.1.source.id true [] (usesOf p found.2)).toOption.map fun renames =>
            decide (∃ plan ∈ found.2, ∃ r ∈ p.index.referencesTo plan.field.id,
              source.text.slice ⟨r.qualified.span.start, r.selection.span.start⟩ = "other." ∧
                ¬ KeepsObject source.text ((renames.get? r.module).getD []) r)).toOption =
      some (some true) := by
    decide +kernel
  obtain ⟨p, outcome, hread, hok, hlost⟩ := exists_of_run hrun
  refine ⟨p, outcome, hread, hok, ?_⟩
  intro planning renames hcarries
  have hplanned : planRenames p planning.module.source.id true [] (usesOf p planning.plans) =
      .ok renames := hcarries.planned
  rw [planning.planned?_eq, Option.bind_some, hplanned] at hlost
  simpa [Except.toOption] using hlost

end Encapsulate

end VbaRefactor
