import VbaRefactor.Proofs.Project
import VbaRefactor.Proofs.Reorder.Arranged
import VbaRefactor.Proofs.Reorder.Texts

/-!
# What a reordering does to the texts

Where the lists that follow the parameters of a member are those of layouts of the modules, and each
has something for every parameter, the reordering succeeds and gives every module the text of its
reordered layout.
-/

namespace VbaRefactor

open List ModuleMap

open Layout

variable {target : Declaration} {sites : List ChangedPlace} {layouts : ModuleName → Layout}
  {n : Nat} {order : Permutation} {p : Project} {r : Refill}

namespace Reorder

section

variable {ending : Text} {parameters : List Parameter}

/-- The lists of a regular layout are full. -/
theorem full_of_mem_lists {l : Layout} (h : l.Regular n ending) {pos : Nat} (hr : r ∈ l.lists pos) :
    Full n r := by
  induction h generalizing pos with
  | nil => cases hr
  | plain _ _ ih => exact ih hr
  | list hfits _ _ _ ihslots ihrest =>
    rename_i gaps slots tail rest _ _ _
    rw [lists, listsIn_eq_flatMap] at hr
    rcases mem_cons.mp hr with rfl | hr
    · have hsnd : (placed pos gaps slots).map Prod.snd = slots := map_snd_placed pos hfits.paired
      have hlen : (placed pos gaps slots).length = slots.length := by rw [← hsnd, length_map, hsnd]
      have hfill {slot : Nat × Layout} (htext : slot.2.text ≠ []) : slotFill slot ≠ .empty := by
        rw [slotFill, if_neg htext]
        exact Fill.noConfusion
      refine ⟨?_, ?_, ?_, ?_⟩
      · rw [listRefill, length_map, hlen]
        exact hfits.wide
      · rw [listRefill, length_map, length_map]
      · intro fill hmem
        rw [listRefill, ← map_take] at hmem
        obtain ⟨slot, hslot, rfl⟩ := mem_map.mp hmem
        apply hfill
        apply hfits.given
        rw [← hsnd, ← map_take]
        exact mem_map_of_mem hslot
      · intro fill hmem
        rw [listRefill, getLast?_map] at hmem
        obtain ⟨slot, hslot, rfl⟩ := Option.map_eq_some_iff.mp hmem
        apply hfill
        apply hfits.lastGiven
        rw [← hsnd, getLast?_map, hslot]
        rfl
    · rcases mem_append.mp hr with hin | hafter
      · obtain ⟨slot, hslot, hmem⟩ := mem_flatMap.mp hin
        exact ihslots slot.2 (mem_of_mem_placed hslot) hmem
      · exact ihrest hafter

theorem checkOrder_eq_ok_iff :
    Parameter.checkOrder parameters order = .ok () ↔ order.size = parameters.length ∧
      Parameter.optionalsLast (order.arrange parameters) = true ∧
      Parameter.paramArrayLast (order.arrange parameters) = true := by
  rw [Parameter.checkOrder]
  by_cases hsize : order.size = parameters.length
  · have harrange : order.arrange parameters = order.apply parameters := by
      rw [Permutation.arrange, hsize, drop_length, append_nil]
    rw [if_neg (by simpa using hsize), harrange]
    simp only [hsize, true_and, Parameter.optionalsLast, Parameter.paramArrayLast]
    cases Parameter.requiredAfterOptional? false (order.apply parameters) with
    | some _ => simp
    | none => cases Parameter.earlyParamArray? (order.apply parameters) <;> simp
  · simp [hsize]

/-- An order that the rules accept leaves a `ParamArray` last. -/
theorem steady_of_checkOrder (ho : order.Valid) (h : Parameter.checkOrder parameters order = .ok ()) :
    Steady order parameters := by
  obtain ⟨hsize, -, hrule⟩ := checkOrder_eq_ok_iff.mp h
  intro i hfixed hi
  obtain ⟨last, hlast, harray, hlen⟩ : ∃ last, parameters[i]? = some last ∧
      last.isParamArray = true ∧ parameters.length = i + 1 := by
    rw [fixedCount] at hfixed
    cases hget : parameters.getLast? with
    | none =>
      rw [getLast?_eq_none_iff] at hget
      simp [hsize, hget] at hi
    | some last =>
      simp only [hget] at hfixed
      split at hfixed
      · have hlen : parameters.length = i + 1 := by omega
        refine ⟨last, ?_, by assumption, hlen⟩
        rw [← hget, getLast?_eq_getElem?, hlen, Nat.add_sub_cancel]
      · omega
  -- Anywhere else it would stand too early.
  obtain ⟨hnew, hold⟩ := ho.oldPlace_idxOf hi
  by_cases hsame : order.oldPlaces.idxOf i = i
  · rw [hsame] at hold
    exact hold
  have harranged : (order.arrange parameters)[order.oldPlaces.idxOf i]? = some last := by
    rw [ho.getElem?_arrange (by omega), Permutation.source, if_pos hnew, hold, hlast]
  have hmem : last ∈ (order.arrange parameters).dropLast := by
    apply mem_of_getElem? (i := order.oldPlaces.idxOf i)
    rw [getElem?_dropLast, ho.length_arrange, if_pos (by omega), harranged]
  rw [Parameter.paramArrayLast, Option.isNone_iff_eq_none, Parameter.earlyParamArray?,
    find?_eq_none] at hrule
  exact absurd harray (hrule last hmem)

/-- The places that change are the signatures and the uses of the affected declarations. -/
theorem mem_changedPlaces_iff {index : Index} (h : index.changedPlaces target = .ok sites) :
    ∃ found, index.affected target = .ok found ∧ ∀ site, site ∈ sites ↔
      ∃ d reason, (d, reason) ∈ found ∧ (site = ⟨d, reason, none⟩ ∨
        ∃ use ∈ index.referencesTo d.id, site = ⟨d, .direct, some use⟩) := by
  rw [Index.changedPlaces] at h
  cases hfound : index.affected target with
  | error e =>
    rw [hfound] at h
    cases h
  | ok found =>
    rw [hfound] at h
    cases h
    refine ⟨found, rfl, ?_⟩
    intro site
    simp [mem_flatMap, eq_comm]

/-- Every place that changes is the signature of its declaration or stands beside it. -/
theorem signature_mem_changedPlaces (h : p.index.changedPlaces target = .ok sites)
    {site : ChangedPlace} (hsite : site ∈ sites) :
    ∃ reason, ⟨site.declaration, reason, none⟩ ∈ sites := by
  obtain ⟨found, -, hmem⟩ := mem_changedPlaces_iff h
  obtain ⟨d, reason, hd, hplace⟩ := (hmem site).mp hsite
  have hdeclaration : site.declaration = d := by
    rcases hplace with rfl | ⟨use, -, rfl⟩ <;> rfl
  rw [hdeclaration]
  exact ⟨reason, (hmem _).mpr ⟨d, reason, hd, .inl rfl⟩⟩

end

/-- A place among `sites` has this list in a module, of which `n` contents change places. -/
def Listed (p : Project) (n : Nat) (sites : List ChangedPlace) (m : ModuleName) (r : Refill) : Prop :=
  ∃ site ∈ sites, ∃ k, Found p (.identity n) site k r ∧ k.Same m

/-- The layouts show what follows the parameters of a target: the places that change with it can all
be changed, and the lists at these places are those of the layouts. -/
structure Shows (p : Project) (target : Declaration) (n : Nat) (layouts : ModuleName → Layout) :
    Prop where
  found : p.declaration target.id = .ok target
  kind : isTarget target.kind = true
  free : p.index.implementedBy target.id = []
  places : ∃ sites, p.index.changedPlaces target = .ok sites ∧
    (∀ site ∈ sites, Manageable p (.identity n) site ∧
      fixedCount site.declaration.reorderable = fixedCount target.reorderable) ∧
    ∀ m r, Listed p n sites m r ↔
      ∃ c, p.modules.get? m = some c ∧ r ∈ (layouts c.source.id).lists 0

/-- The lists that a run finds at the places of a target are those of the layouts, in order. -/
def Computes (p : Project) (target : Declaration) (n : Nat) (layouts : ModuleName → Layout) : Prop :=
  (p.index.get? target.id = some target ∧ isTarget target.kind = true ∧
    p.index.implementedBy target.id = []) ∧
  ∃ sites ∈ (p.index.changedPlaces target).toOption,
    (∀ site ∈ sites, fixedCount site.declaration.reorderable = fixedCount target.reorderable) ∧
    ∃ plan ∈ (planSites p (.identity n) ⟨[], []⟩ sites).toOption, plan.skipped = [] ∧
      plan.refills = p.modules.map fun entry => (entry.1, (layouts entry.2.source.id).lists 0)

instance (p : Project) (target : Declaration) (n : Nat) (layouts : ModuleName → Layout) :
    Decidable (Computes p target n layouts) :=
  inferInstanceAs (Decidable (_ ∧ _))

/-- The plan of the places alone holds the lists that stand there. -/
theorem has_planSites_empty_iff {plan : Plan}
    (h : planSites p (.identity n) ⟨[], []⟩ sites = .ok plan) {m : ModuleName} :
    plan.Has m r ↔ Listed p n sites m r := by
  rw [has_planSites_iff h]
  simp [Plan.Has, get?_nil, Listed]

theorem Computes.shows (h : Computes p target n layouts) : Shows p target n layouts := by
  obtain ⟨⟨hfound, hkind, hfree⟩, sites, hsites, halike, plan, hplan, hskipped, hrefills⟩ := h
  have hplan := eq_ok_of_mem_toOption hplan
  have hmanage := ((skipped_planSites_iff hplan).mp hskipped).2
  refine ⟨by rw [Project.declaration, hfound], hkind, hfree, sites, eq_ok_of_mem_toOption hsites,
    fun site hsite => ⟨hmanage site hsite, halike site hsite⟩, ?_⟩
  intro m r
  rw [← has_planSites_empty_iff hplan, Plan.Has, hrefills, get?_map fun c : ModuleContent => (layouts c.source.id).lists 0]
  simp

section

/-- A new order that the rules accept is carried out. -/
theorem check_eq (h : Shows p target order.size layouts)
    (hrules : Parameter.checkOrder target.reorderable order = .ok ()) :
    check p ⟨target.id, order⟩ = .ok (if order.isIdentity then none else some target) := by
  have hsize := (checkOrder_eq_ok_iff.mp hrules).1
  rw [check, h.found]
  by_cases hid : order.isIdentity = true <;> simp [h.kind, hsize, hid, hrules, bind, Except.bind, pure,
    Except.pure]

section

variable (h : Shows p target order.size layouts) (hlaid : p.LaidOut order.size layouts)
  (hsites : p.index.changedPlaces target = .ok sites) (ho : order.Valid)
  (hsteady : Steady order target.reorderable)

include h hlaid hsites ho hsteady

/-- What the places need for an order are the lists of the layouts, arranged. -/
theorem found_iff :
    (∀ site ∈ sites, Manageable p order site) ∧
    ∀ m r, (∃ site ∈ sites, ∃ k, Found p order site k r ∧ k.Same m) ↔
      ∃ c, p.modules.get? m = some c ∧ r ∈ (layouts c.source.id).refills order 0 := by
  obtain ⟨sites', hsites', hplaces, hlists⟩ := h.places
  cases hsites.symm.trans hsites'
  have hfull {m : ModuleName} {r : Refill} (hr : Listed p order.size sites m r) : Full order.size r := by
    obtain ⟨c, hc, hmem⟩ := (hlists m r).mp hr
    exact full_of_mem_lists (hlaid m c hc).2.2 hmem
  have hcount {site : ChangedPlace} (hsite : site ∈ sites) :
      site.declaration.reorderable.length = order.size := by
    obtain ⟨reason, hsignature⟩ := signature_mem_changedPlaces hsites hsite
    obtain ⟨r, hr⟩ := (hplaces _ hsignature).1
    obtain ⟨-, -, -, -, -, hlen, -⟩ := signatureRefill_eq_ok_iff.mp hr
    rw [hlen, Permutation.size_identity]
  have harranged {site : ChangedPlace} (hsite : site ∈ sites) {m : ModuleName} {r : Refill}
      (hr : Found p (.identity order.size) site m r) : Found p order site m (arranged order r) := by
    refine hr.arranged ho (hcount hsite) ?_ (hfull ⟨site, hsite, m, hr, .refl m⟩)
    intro i hi
    rw [(hplaces site hsite).2] at hi
    exact hsteady i hi
  refine ⟨?_, ?_⟩
  · intro site hsite
    rcases (hplaces site hsite).1.found_or with ⟨m, r, hr⟩ | hnone
    · exact (harranged hsite hr).manageable
    · exact (hnone order).1
  · intro m r
    rw [show (∃ c, p.modules.get? m = some c ∧ r ∈ (layouts c.source.id).refills order 0) ↔
      ∃ old, Listed p order.size sites m old ∧ arranged order old = r by
        simp only [hlists, Layout.refills, mem_map]
        grind]
    constructor
    · rintro ⟨site, hsite, k, hr, hsame⟩
      rcases (hplaces site hsite).1.found_or with ⟨k', old, hold⟩ | hnone
      · obtain ⟨rfl, rfl⟩ := (harranged hsite hold).unique hr
        exact ⟨old, ⟨site, hsite, k', hold, hsame⟩, rfl⟩
      · exact absurd hr ((hnone order).2 k r)
    · rintro ⟨old, ⟨site, hsite, k, hold, hsame⟩, rfl⟩
      exact ⟨site, hsite, k, harranged hsite hold, hsame⟩

/-- The places of a target are planned without skipping any, and the refills of the plan arrange the
layouts. -/
theorem plan_arranges :
    ∃ plan, planSites p order ⟨[], []⟩ sites = .ok plan ∧ plan.skipped = [] ∧
      Sorted plan.refills ∧ p.Arranges order layouts plan.refills ∧
      ∀ m c, p.modules.get? m = some c → plan.refills.get? m = none →
        (layouts c.source.id).lists 0 = [] := by
  obtain ⟨hmanage, hfound⟩ := found_iff h hlaid hsites ho hsteady
  obtain ⟨plan, hplan⟩ := planSites_of_manageable hmanage ⟨[], []⟩
  have hhas (m : ModuleName) (r : Refill) : plan.Has m r ↔
      ∃ c, p.modules.get? m = some c ∧ r ∈ (layouts c.source.id).refills order 0 := by
    rw [has_planSites_iff hplan, hfound]
    simp [Plan.Has, get?_nil]
  obtain ⟨hsorted, hsome⟩ := refills_planSites hplan sorted_nil (by simp [get?_nil])
  refine ⟨plan, hplan, (skipped_planSites_iff hplan).mpr ⟨rfl, hmanage⟩, hsorted, ?_, ?_⟩
  · intro entry hentry
    have hget := get?_of_mem hsorted hentry
    have hne : entry.2 ≠ [] := fun hnil => hsome entry.1 (by rw [hget, hnil])
    obtain ⟨r, hr⟩ := exists_mem_of_ne_nil _ hne
    obtain ⟨c, hc, -⟩ := (hhas entry.1 r).mp ⟨entry.2, hget, hr⟩
    refine ⟨c, hc, ?_⟩
    intro r
    have := hhas entry.1 r
    simp only [Plan.Has, hget, hc, Option.some.injEq, exists_eq_left'] at this
    exact this
  · intro m c hc hnone
    have hempty : (layouts c.source.id).refills order 0 = [] := by
      apply eq_nil_iff_forall_not_mem.mpr
      intro r hr
      obtain ⟨refills, hrefills, -⟩ := (hhas m r).mpr ⟨c, hc, hr⟩
      rw [hnone] at hrefills
      cases hrefills
    exact map_eq_nil_iff.mp hempty

end

/-- A reordering gives every module the text of its reordered layout. -/
theorem reorder_eq (h : Shows p target order.size layouts)
    (hlaid : p.LaidOut order.size layouts) (ho : order.Valid)
    (hrules : Parameter.checkOrder target.reorderable order = .ok ()) (answers : Answers) :
    ∃ changes, (p.reorder ⟨target.id, order⟩ answers).result = .ok ⟨changes, []⟩ ∧
      ∀ m c, p.modules.get? m = some c → get? changes m =
        if ((layouts c.source.id).reorder order).text = c.source.text then none
        else some ((layouts c.source.id).reorder order).text := by
  rw [Project.reorder, check_eq h hrules]
  cases hid : order.isIdentity with
  | true =>
    refine ⟨[], rfl, ?_⟩
    intro m c hc
    rw [Permutation.eq_identity hid, reorder_identity, if_pos (hlaid m c hc).2.1.symm]
    rfl
  | false =>
    obtain ⟨sites, hsites, -, -⟩ := h.places
    obtain ⟨plan, hplan, hskipped, hsorted, harranges, hnone⟩ :=
      plan_arranges h hlaid hsites ho (steady_of_checkOrder ho hrules)
    obtain ⟨q, hq, hcommit⟩ :=
      Project.commit_arranges hlaid ho (ho.two_le_size hid) hsorted harranges hnone
    refine ⟨q.commit.1, ?_, hcommit⟩
    simp [question?, h.free, perform, hsites, hplan, hq, hskipped, bind, Except.bind, pure, Except.pure]

end

end Reorder

end VbaRefactor
