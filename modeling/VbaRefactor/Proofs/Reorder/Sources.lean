import VbaRefactor.Plan.Basic
import VbaRefactor.Proofs.Reorder.Effect

/-!
# Reordered sources

Where a reading shows layouts of the sources, a reordering gives every source the text of its reordered
layout. A second reading of these texts need not find all lists again.
-/

namespace VbaRefactor

open List Project

open Layout Reorder

variable {target : Declaration} {sources : List Source} {layouts : ModuleName → Layout}
  {order : Permutation} {p : Project}

section

variable {n : Nat}

/-- The layouts are those of the sources. -/
def Layouts (n : Nat) (layouts : ModuleName → Layout) (sources : List Source) : Prop :=
  ∀ s ∈ sources, s.text = (layouts s.id).text ∧ (layouts s.id).Regular n s.text.lineEnding

/-- The sources with the texts of reordered layouts. -/
def reorderSources (layouts : ModuleName → Layout) (order : Permutation) (sources : List Source) :
    List Source :=
  sources.map fun s => { s with text := ((layouts s.id).reorder order).text }

section

variable (hnames : sources.Pairwise fun a b => ¬ a.id.Same b.id)
  (hread : read sources = .ok p)

include hnames hread

theorem Project.laidOut_of_read (h : Layouts n layouts sources) : p.LaidOut n layouts := by
  intro m c hc
  obtain ⟨hmem, hsame⟩ := (get?_modules_iff hnames hread m c.source).mp ⟨c, hc, rfl⟩
  exact ⟨hsame, h c.source hmem⟩

theorem Plan.update_eq {changes : Changes}
    (hchanges : ∀ m c, p.modules.get? m = some c → ModuleMap.get? changes m =
      if ((layouts c.source.id).reorder order).text = c.source.text then none
      else some ((layouts c.source.id).reorder order).text) :
    Plan.update changes sources = reorderSources layouts order sources := by
  apply map_congr_left
  intro s hs
  obtain ⟨c, hc, rfl⟩ := (get?_modules_iff hnames hread s.id s).mpr ⟨hs, .refl s.id⟩
  rw [hchanges c.source.id c hc]
  split
  · rename_i hnone
    split at hnone <;> simp_all
  · rename_i hnone
    split at hnone <;> simp_all

end

/-- Regular layouts of the sources, as a test finds them. -/
theorem Layouts.of_isRegular (h : ∀ s ∈ sources, s.text = (layouts s.id).text ∧
      (layouts s.id).isRegular n s.text.lineEnding = true) : Layouts n layouts sources :=
  fun s hs => ⟨(h s hs).1, Layout.regular_of_isRegular (h s hs).2⟩

/-- Where a reading shows layouts of the sources, a reordering gives every source the text of its
reordered layout. -/
theorem Reorder.Shows.reorder_sources (h : Shows p target order.size layouts)
    (hnames : sources.Pairwise fun a b => ¬ a.id.Same b.id) (hread : read sources = .ok p)
    (hlayouts : Layouts order.size layouts sources) (ho : order.Valid)
    (hrules : Parameter.checkOrder target.reorderable order = .ok ()) (answers : Answers) :
    ∃ outcome, (p.reorder ⟨target.id, order⟩ answers).result = .ok outcome ∧ outcome.skipped = [] ∧
      Plan.update outcome.changes sources = reorderSources layouts order sources := by
  obtain ⟨changes, hresult, hchanges⟩ :=
    reorder_eq h (laidOut_of_read hnames hread hlayouts) ho hrules answers
  exact ⟨⟨changes, []⟩, hresult, rfl, Plan.update_eq hnames hread hchanges⟩

end

/-! ## The rules on parameters -/

/-- What the rules on the order of parameters look at. -/
def Parameter.rank (p : Parameter) : Bool × Bool := (p.isOptional, p.isParamArray)

section

variable {a b : List Parameter} (h : a.map Parameter.rank = b.map Parameter.rank)

include h

theorem Parameter.isNone_requiredAfterOptional?_congr (seen : Bool) :
    (requiredAfterOptional? seen a).isNone = (requiredAfterOptional? seen b).isNone := by
  induction a generalizing b seen with
  | nil =>
    rw [map_nil, eq_comm, map_eq_nil_iff] at h
    rw [h]
  | cons x a ih =>
    cases b with
    | nil => cases h
    | cons y b =>
      obtain ⟨hrank, hrest⟩ := List.cons.inj h
      obtain ⟨hoptional, harray⟩ := Prod.mk.inj hrank
      rw [requiredAfterOptional?, requiredAfterOptional?, hoptional, harray]
      split
      · exact ih hrest true
      · split
        · rfl
        · exact ih hrest seen

theorem Parameter.optionalsLast_congr : optionalsLast a = optionalsLast b :=
  isNone_requiredAfterOptional?_congr h false

theorem Parameter.paramArrayLast_congr : paramArrayLast a = paramArrayLast b := by
  have hany (l : List Parameter) :
      paramArrayLast l = !((l.map Parameter.rank).dropLast.any Prod.snd) := by
    rw [paramArrayLast, earlyParamArray?, ← map_dropLast, any_map, Bool.eq_iff_iff]
    simp [Parameter.rank]
  rw [hany, hany, h]

end

namespace Reorder

variable {answers : Answers} {first : Outcome}

/-- What a request that passes the check asks for. -/
theorem of_check_ok {request : ReorderRequest} {todo : Option Declaration}
    (h : check p request = .ok todo) :
    ∃ requested, p.declaration request.target = .ok requested ∧ isTarget requested.kind = true ∧
      request.permutation.size = requested.reorderable.length ∧
      ((request.permutation.isIdentity = true ∧ todo = none) ∨
        (request.permutation.isIdentity = false ∧
          Parameter.checkOrder requested.reorderable request.permutation = .ok () ∧
          todo = some requested)) := by
  rw [check] at h
  obtain ⟨requested, hfound, h⟩ := bind_eq_ok_iff.mp h
  refine ⟨requested, hfound, ?_⟩
  dsimp only at h
  split at h
  · cases h
  rename_i hkind
  split at h
  · cases h
  rename_i hsize
  refine ⟨by simpa using hkind, not_not.mp hsize, ?_⟩
  split at h
  · cases h
    exact .inl ⟨by assumption, rfl⟩
  · rename_i hid
    split at h
    · cases h
    · cases h
      exact .inr ⟨Bool.not_eq_true _ |>.mp hid, by assumption, rfl⟩

theorem of_perform_ok (h : perform p target order = .ok first) :
    ∃ sites plan, p.index.changedPlaces target = .ok sites ∧
      planSites p order ⟨[], []⟩ sites = .ok plan := by
  rw [perform] at h
  obtain ⟨sites, hsites, h⟩ := bind_eq_ok_iff.mp h
  obtain ⟨plan, hplan, h⟩ := bind_eq_ok_iff.mp h
  exact ⟨sites, plan, hsites, hplan⟩

/-- The list of a signature stands on one line. A call gives all arguments by name, or one for each of
the `n` parameters that can change places. -/
def Complete (p : Project) (n : Nat) (site : ChangedPlace) : Prop :=
  match site.reference? with
  | none => ∀ node list, p.memberItem? site.declaration.id = some node → node.list? = some list →
    list.extent.lineStart = list.extent.lineEnd
  | some use => ∀ list, use.arguments? = some list →
    list.arguments = [] ∨ list.everyNamed = true ∨
      (n ≤ list.arguments.length ∧ ∀ a ∈ list.arguments.take n, a.kind ≠ .missing)

instance (p : Project) (n : Nat) (site : ChangedPlace) : Decidable (Complete p n site) :=
  match huse : site.reference? with
  | none => decidable_of_iff (∀ node ∈ p.memberItem? site.declaration.id, ∀ list ∈ node.list?,
      list.extent.lineStart = list.extent.lineEnd) (by
        simp only [Complete, huse]
        exact ⟨fun h node list hnode hlist => h node hnode list hlist,
          fun h node hnode list hlist => h node list hnode hlist⟩)
  | some use => decidable_of_iff (∀ list ∈ use.arguments?, list.arguments = [] ∨
      list.everyNamed = true ∨ (n ≤ list.arguments.length ∧
        ∀ a ∈ list.arguments.take n, a.kind ≠ .missing)) (by
        simp only [Complete, huse]
        exact Iff.rfl)

/-- An argument that starts with a point is moved to the front, where the second reading takes it for
a member of the procedure. So it does not find the call, and the inverse order changes the signature
only. -/
theorem inverse_fails_with_member :
    let source : Source := ⟨⟨"P", "M"⟩, .standard,
      "Public Sub Foo(a, b)\nEnd Sub\n\nPublic Sub T(x As Object)\n    With x\n        Foo 1, .Size\n    End With\nEnd Sub\n".toList⟩
    let order : Permutation := ⟨[1, 0]⟩
    let answers : Answers := ⟨fun _ => true, fun _ members => members.head?.map Declaration.id⟩
    ∃ p target first p' target' second, Project.read [source] = .ok p ∧
      p.declaration target.id = .ok target ∧ p.index.implementedBy target.id = [] ∧
      (∀ sites, p.index.changedPlaces target = .ok sites → ∀ site ∈ sites, Complete p order.size site) ∧
      (p.reorder ⟨target.id, order⟩ answers).result = .ok first ∧ first.skipped = [] ∧
      Project.read (Plan.update first.changes [source]) = .ok p' ∧
      p'.declaration target'.id = .ok target' ∧ target'.name = target.name ∧
      (p'.reorder ⟨target'.id, order.inverse⟩ answers).result = .ok second ∧
      Plan.update second.changes (Plan.update first.changes [source]) ≠ [source] := by
  intro source order answers
  let signature (first second : Text) (rest : Layout) : Layout :=
    .plain "Public Sub Foo" (.list ["(", ", "] [.plain first .nil, .plain second .nil] ")" rest)
  let before : Layout := signature "a" "b" (.plain
    "\nEnd Sub\n\nPublic Sub T(x As Object)\n    With x\n        Foo "
    (.list ["", ", "] [.plain "1" .nil, .plain ".Size" .nil] ""
      (.plain "\n    End With\nEnd Sub\n" .nil)))
  -- in the changed text the call is no list
  let after : Layout := signature "b" "a" (.plain
    "\nEnd Sub\n\nPublic Sub T(x As Object)\n    With x\n        Foo .Size, 1\n    End With\nEnd Sub\n"
    .nil)
  let changed : Source := { source with text := after.text }
  have hchanged : reorderSources (fun _ => before) order [source] = [changed] := by decide +kernel
  have hlayouts : Layouts order.size (fun _ => before) [source] := .of_isRegular (by decide +kernel)
  have hlayouts' : Layouts order.inverse.size (fun _ => after) [changed] :=
    .of_isRegular (by decide +kernel)
  have hrun : ∃ p ∈ (Project.read [source]).toOption, ∃ target ∈ p.index.get? 1,
      target.name = "Foo" ∧ Parameter.checkOrder target.reorderable order = .ok () ∧
      Computes p target order.size (fun _ => before) ∧
      ∀ sites ∈ (p.index.changedPlaces target).toOption, ∀ site ∈ sites,
        Complete p order.size site := by
    decide +kernel
  have hrun' : ∃ p ∈ (Project.read [changed]).toOption, ∃ target ∈ p.index.get? 1,
      target.name = "Foo" ∧ Parameter.checkOrder target.reorderable order.inverse = .ok () ∧
      Computes p target order.inverse.size (fun _ => after) := by
    decide +kernel
  obtain ⟨p, hread, target, -, hname, hrules, hcomputes, hcomplete⟩ := hrun
  obtain ⟨p', hread', target', -, hname', hrules', hcomputes'⟩ := hrun'
  have hread := eq_ok_of_mem_toOption hread
  have hread' := eq_ok_of_mem_toOption hread'
  obtain ⟨first, hfirst, hskipped, hupdate⟩ := hcomputes.shows.reorder_sources
    (List.pairwise_singleton _ _) hread hlayouts (by decide) hrules answers
  obtain ⟨second, hsecond, -, hupdate'⟩ := hcomputes'.shows.reorder_sources
    (List.pairwise_singleton _ _) hread' hlayouts' (by decide) hrules' answers
  rw [hchanged] at hupdate
  refine ⟨p, target, first, p', target', second, hread, hcomputes.shows.found,
    hcomputes.shows.free, fun sites hsites => hcomplete sites (by rw [hsites]; rfl), hfirst, hskipped,
    by rw [hupdate, hread'], hcomputes'.shows.found, hname'.trans hname.symm, hsecond, ?_⟩
  rw [hupdate, hupdate']
  decide +kernel

end Reorder

end VbaRefactor
