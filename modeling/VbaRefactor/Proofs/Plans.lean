import VbaRefactor.Proofs.Reorder.Sources

/-!
# Plans one after another

A plan that is cut in two can be carried out in two runs, the second one on the texts that the first
one leaves. The changes of a plan compare the last texts with the first ones, so that they say the
same as the changes of its parts, one after another.
-/

namespace VbaRefactor

open List ModuleMap

variable {e : Error} {before final sources : List Source} {steps : List Step}
  {reports : List StepResult} {number : Nat}

/-- The result of a step that `n` more steps come before. -/
def StepResult.after (n : Nat) (r : StepResult) : StepResult := { r with number := n + r.number }

namespace Plan

/-! ## The steps -/

section

variable {confirm : Text → Bool}

/-- The steps of two lists are carried out one list after the other. -/
theorem runSteps_append (p q : List Step) : runSteps confirm number sources (p ++ q) =
    match runSteps confirm number sources p with
    | .error e => .error e
    | .ok (reports, between) =>
      match runSteps confirm (number + p.length) between q with
      | .error e => .error e
      | .ok (more, final) => .ok (reports ++ more, final) := by
  induction p generalizing number sources with
  | nil =>
    simp only [runSteps, nil_append, length_nil, Nat.add_zero]
    split <;> simp_all
  | cons step p ih =>
    simp only [cons_append, runSteps, length_cons]
    cases hstep : Project.read sources >>= (step.run · confirm) with
    | error e => rfl
    | ok outcome =>
      simp only [ih, Nat.add_assoc number 1, Nat.add_comm 1]
      cases runSteps confirm (number + 1) (update outcome.changes sources) p with
      | error e => rfl
      | ok result =>
        obtain ⟨reports, between⟩ := result
        dsimp only
        cases runSteps confirm (number + (p.length + 1)) between q <;> rfl

/-- Only the reports know from which number on the steps are counted. -/
theorem runSteps_add (n : Nat) (h : runSteps confirm number sources steps = .ok (reports, final)) :
    runSteps confirm (n + number) sources steps = .ok (reports.map (·.after n), final) := by
  induction steps generalizing number sources reports with
  | nil =>
    cases h
    rfl
  | cons step steps ih =>
    rw [runSteps] at h ⊢
    split at h
    · cases h
    · dsimp only at h ⊢
      split at h
      · cases h
      · rename_i more _ hmore
        cases h
        rw [Nat.add_assoc, ih hmore]
        rfl

/-- A failure names its step, counted from the number of the first one. -/
theorem exists_stepFailed_of_runSteps (h : runSteps confirm number sources steps = .error e) :
    ∃ k < steps.length, ∃ cause, e = .stepFailed (number + k) cause ∧
      ∀ n, runSteps confirm (n + number) sources steps =
        .error (.stepFailed (n + number + k) cause) := by
  induction steps generalizing number sources with
  | nil => cases h
  | cons step steps ih =>
    rw [runSteps] at h
    split at h
    · rename_i cause hstep
      cases h
      refine ⟨0, Nat.succ_pos _, cause, rfl, ?_⟩
      intro n
      rw [runSteps, hstep]
      rfl
    · rename_i outcome hstep
      dsimp only at h
      split at h
      · rename_i fault hrest
        cases h
        obtain ⟨k, hk, cause, rfl, hshift⟩ := ih hrest
        refine ⟨k + 1, Nat.succ_lt_succ hk, cause, by rw [Nat.add_assoc, Nat.add_comm 1], ?_⟩
        intro n
        rw [runSteps, hstep]
        dsimp only
        rw [Nat.add_assoc n, hshift n]
        dsimp only
        rw [← Nat.add_assoc n, Nat.add_assoc (n + number), Nat.add_comm 1]
      · cases h

end

/-! ## The texts -/

/-- The same modules in the same order, whose texts may differ. -/
def SameModules (before after : List Source) : Prop :=
  List.Forall₂ (fun s s' : Source => s' = { s with text := s'.text }) before after

theorem SameModules.refl (sources : List Source) : SameModules sources sources :=
  forall₂_same.mpr fun _ _ => rfl

theorem SameModules.trans {a b c : List Source} (hab : SameModules a b) (hbc : SameModules b c) :
    SameModules a c := by
  induction hab generalizing c with
  | nil => exact hbc
  | cons hs _ ih =>
    cases hbc with
    | cons hs' hrest =>
      refine .cons ?_ (ih hrest)
      rw [hs', hs]

theorem sameModules_update (changes : Changes) (sources : List Source) :
    SameModules sources (update changes sources) := by
  rw [SameModules, update, forall₂_map_right_iff]
  refine forall₂_same.mpr ?_
  intro s _
  split <;> rfl

theorem SameModules.map_id {after : List Source} (h : SameModules before after) :
    after.map Source.id = before.map Source.id := by
  induction h with
  | nil => rfl
  | cons hs _ ih => rw [map_cons, map_cons, ih, hs]

variable {confirm : Text → Bool}

/-- The texts of modules are new texts of the same modules, whatever is done to them. -/
theorem sameModules_of_runSteps (h : runSteps confirm number sources steps = .ok (reports, final)) :
    SameModules sources final := by
  induction steps generalizing number sources reports with
  | nil =>
    cases h
    exact .refl _
  | cons step steps ih =>
    rw [runSteps] at h
    split at h
    · cases h
    · dsimp only at h
      split at h
      · cases h
      · rename_i hmore
        cases h
        exact (sameModules_update _ _).trans (ih hmore)

/-- What changes say of how the texts of modules have changed: they list the modules whose texts
differ, each once and in order, with their last texts. -/
structure Accounts (changes : Changes) (before after : List Source) : Prop where
  sorted : ModuleMap.Sorted changes
  mem_iff : ∀ m text, (m, text) ∈ changes ↔
    ∃ s ∈ before, ∃ s' ∈ after, s.id = m ∧ s'.id = m ∧ s'.text = text ∧ text ≠ s.text
  isEmpty : changes = [] ↔ after = before
  updates : update changes before = after

section

variable {after : List Source} (hnames : before.Pairwise fun a b => ¬ a.id.Same b.id)
  (h : SameModules before after)

include hnames h

theorem SameModules.pairwise : after.Pairwise fun a b => ¬ a.id.Same b.id := by
  have hids : (before.map Source.id).Pairwise fun a b => ¬ a.Same b := pairwise_map.mpr hnames
  rw [← h.map_id] at hids
  exact pairwise_map.mp hids

/-- The differences are the table of the modules whose texts are no longer the old ones. -/
theorem differences_eq : differences before after = .ofList ((after.filter fun s =>
    (ofList (before.map fun s => (s.id, s.text))).get? s.id ≠ some s.text).map
      fun s => (s.id, s.text)) := by
  rw [differences, ofLatest_eq_ofList]
  exact pairwise_map.mpr ((SameModules.pairwise hnames h).filter _)

theorem mem_differences_iff (m : ModuleName) (text : Text) :
    (m, text) ∈ differences before after ↔
      ∃ s ∈ before, ∃ s' ∈ after, s.id = m ∧ s'.id = m ∧ s'.text = text ∧ text ≠ s.text := by
  have hold : (before.map fun s => (s.id, s.text)).Pairwise fun a b => ¬ a.1.Same b.1 :=
    pairwise_map.mpr hnames
  rw [differences_eq hnames h, mem_ofList_iff]
  · simp only [mem_map, mem_filter, decide_eq_true_eq, Prod.mk.injEq, Ne, get?_ofList hold]
    constructor
    · rintro ⟨s', ⟨hs', hne⟩, rfl, rfl⟩
      obtain ⟨s, hs, hid⟩ := mem_map.mp (h.map_id ▸ mem_map_of_mem hs')
      refine ⟨s, hs, s', hs', hid, rfl, rfl, ?_⟩
      intro htext
      exact hne ⟨s.id, ⟨s, hs, rfl, htext.symm⟩, hid ▸ .refl _⟩
    · rintro ⟨s, hs, s', hs', rfl, hid, rfl, hne⟩
      refine ⟨s', ⟨hs', ?_⟩, hid, rfl⟩
      rintro ⟨_, ⟨old, hin, rfl, htext⟩, hsame⟩
      rw [hid] at hsame
      rw [Source.eq_of_same hnames hin hs hsame] at htext
      exact hne htext.symm
  · exact pairwise_map.mpr ((SameModules.pairwise hnames h).filter _)

/-- Each module is given the text that it has in the end. -/
theorem update_differences : update (differences before after) before = after := by
  have hsorted : Sorted (differences before after) := by
    rw [differences_eq hnames h]
    exact sorted_ofList _
  obtain ⟨hlength, hpairs⟩ := forall₂_iff_zip.mp h
  rw [update, ← forall₂_eq_eq_eq, forall₂_map_left_iff]
  refine forall₂_iff_zip.mpr ⟨hlength, ?_⟩
  intro s s' hzip
  have hs' : s' = { s with text := s'.text } := hpairs hzip
  obtain ⟨hmem, hmem'⟩ := of_mem_zip hzip
  have hid : s'.id = s.id := by rw [hs']
  by_cases htext : s'.text = s.text
  · have hnone : (differences before after).get? s.id = none := by
      apply get?_eq_none
      rintro ⟨m, text⟩ hentry hsame
      obtain ⟨a, ha, b, hb, rfl, hb', rfl, hne⟩ := (mem_differences_iff hnames h _ _).mp hentry
      obtain rfl := Source.eq_of_same hnames ha hmem hsame
      obtain rfl := Source.eq_of_same (SameModules.pairwise hnames h) hb hmem' (hb' ▸ hid ▸ .refl _)
      exact hne htext
    rw [hnone, hs', htext]
  · have hsome := get?_of_mem hsorted
      ((mem_differences_iff hnames h s.id s'.text).mpr ⟨s, hmem, s', hmem', rfl, hid, rfl, htext⟩)
    rw [hsome]
    exact hs'.symm

/-- The differences of the texts account for how they have changed. -/
theorem accounts_differences : Accounts (differences before after) before after where
  sorted := by
    rw [differences_eq hnames h]
    exact sorted_ofList _
  mem_iff := mem_differences_iff hnames h
  isEmpty := by
    constructor
    · intro hnil
      have hupdate := update_differences hnames h
      rw [hnil] at hupdate
      rw [← hupdate]
      exact List.map_id _
    · rintro rfl
      refine eq_nil_iff_forall_not_mem.mpr ?_
      rintro ⟨m, text⟩ hentry
      obtain ⟨s, hs, s', hs', hid, hid', htext, hne⟩ := (mem_differences_iff hnames h m text).mp hentry
      rw [Source.eq_of_same hnames hs' hs (hid ▸ hid' ▸ .refl _)] at htext
      exact hne htext.symm
  updates := update_differences hnames h

end

/-! ## Whole plans -/

section

variable {confirm : Text → Bool} {plan : Plan}

theorem run_eq_error_iff : plan.run sources confirm = .error e ↔
    runSteps confirm 1 sources plan.steps = .error e := by
  rw [run]
  split <;> simp_all

theorem exists_runSteps_of_run {result : PlanResult} (h : plan.run sources confirm = .ok result) :
    ∃ final, runSteps confirm 1 sources plan.steps = .ok (result.reports, final) ∧
      result.changes = differences sources final := by
  rw [run] at h
  split at h
  · cases h
  · rename_i reports final hsteps
    cases h
    exact ⟨final, hsteps, rfl⟩

end

/-- A plan of two parts does what its parts do one after another, the second one on the texts that
the first one leaves: it fails as the first part does, else as the second part does at a later step,
else it reports the steps of both and leaves the texts that the second part leaves. The changes of
any plan account for how the texts have changed from the first step to the last. -/
theorem run_append {sources : List Source} (hnames : sources.Pairwise fun a b => ¬ a.id.Same b.id)
    (p q : List Step) (confirm : Text → Bool) :
    (∀ e, run ⟨p⟩ sources confirm = .error e →
      run ⟨p ++ q⟩ sources confirm = .error e ∧
        ∃ k cause, e = .stepFailed k cause ∧ 0 < k ∧ k ≤ p.length) ∧
    (∀ first, run ⟨p⟩ sources confirm = .ok first →
      (∀ e, run ⟨q⟩ (update first.changes sources) confirm = .error e →
        ∃ k cause, e = .stepFailed k cause ∧ 0 < k ∧ k ≤ q.length ∧
          run ⟨p ++ q⟩ sources confirm = .error (.stepFailed (p.length + k) cause)) ∧
      ∀ second, run ⟨q⟩ (update first.changes sources) confirm = .ok second →
        ∃ whole, run ⟨p ++ q⟩ sources confirm = .ok whole ∧
          whole.reports = first.reports ++ second.reports.map (·.after p.length) ∧
          update whole.changes sources =
            update second.changes (update first.changes sources)) ∧
    ∀ steps result, run ⟨steps⟩ sources confirm = .ok result →
      ∃ final, runSteps confirm 1 sources steps = .ok (result.reports, final) ∧
        Accounts result.changes sources final := by
  have haccounts : ∀ steps result, run ⟨steps⟩ sources confirm = .ok result →
      ∃ final, runSteps confirm 1 sources steps = .ok (result.reports, final) ∧
        Accounts result.changes sources final := by
    intro steps result hrun
    obtain ⟨final, hsteps, hchanges⟩ := exists_runSteps_of_run hrun
    refine ⟨final, hsteps, ?_⟩
    rw [hchanges]
    exact accounts_differences hnames (sameModules_of_runSteps hsteps)
  refine ⟨?_, ?_, haccounts⟩
  · intro e herror
    have hsteps : runSteps confirm 1 sources p = .error e := run_eq_error_iff.mp herror
    obtain ⟨k, hk, cause, rfl, -⟩ := exists_stepFailed_of_runSteps hsteps
    refine ⟨run_eq_error_iff.mpr ?_, 1 + k, cause, rfl, by omega, by omega⟩
    rw [runSteps_append, hsteps]
  · intro first hfirst
    obtain ⟨between, hsteps, hbetween⟩ := haccounts p first hfirst
    rw [hbetween.updates]
    refine ⟨?_, ?_⟩
    · intro e herror
      have hmore : runSteps confirm 1 between q = .error e := run_eq_error_iff.mp herror
      obtain ⟨k, hk, cause, rfl, hlater⟩ := exists_stepFailed_of_runSteps hmore
      refine ⟨1 + k, cause, rfl, by omega, by omega, run_eq_error_iff.mpr ?_⟩
      rw [runSteps_append, hsteps, Nat.add_comm 1]
      simp only [hlater, Nat.add_assoc]
    · intro second hsecond
      obtain ⟨final, hmore, hchanges⟩ := exists_runSteps_of_run hsecond
      have hwhole : runSteps confirm 1 sources (p ++ q) =
          .ok (first.reports ++ second.reports.map (·.after p.length), final) := by
        rw [runSteps_append, hsteps, Nat.add_comm 1]
        simp only [runSteps_add p.length hmore]
      have hnext := sameModules_of_runSteps hsteps
      refine ⟨⟨_, differences sources final⟩, by rw [run, hwhole], rfl, ?_⟩
      rw [update_differences hnames (sameModules_of_runSteps hwhole), hchanges,
        update_differences (SameModules.pairwise hnames hnext) (sameModules_of_runSteps hmore)]

theorem run_singleton {p : Project} {step : Step} {outcome : Outcome}
    (hread : Project.read sources = .ok p) (hstep : step.run p confirm = .ok outcome) :
    run ⟨[step]⟩ sources confirm =
      .ok ⟨[⟨1, step.action, outcome.changes.map Prod.fst, outcome.skipped⟩],
        differences sources (update outcome.changes sources)⟩ := by
  have hboth : (Project.read sources >>= (step.run · confirm)) = .ok outcome := by
    rw [hread]
    exact hstep
  simp only [run, runSteps, hboth]

/-- Parameters are put in another order and back: each of the two plans changes the module, and the
plan of both steps reports them and changes nothing. -/
theorem run_append_undone :
    let source : Source := ⟨⟨"P", "M"⟩, .standard, "Sub Foo(a, b)\nEnd Sub\n".toList⟩
    let there : Step := .reorder ⟨"M.Foo", none, ["b", "a"], none⟩
    let back : Step := .reorder ⟨"M.Foo", none, ["a", "b"], none⟩
    let confirm : Text → Bool := fun _ => true
    ∃ first second whole, run ⟨[there]⟩ [source] confirm = .ok first ∧ first.changes ≠ [] ∧
      run ⟨[back]⟩ (update first.changes [source]) confirm = .ok second ∧ second.changes ≠ [] ∧
      run ⟨[there] ++ [back]⟩ [source] confirm = .ok whole ∧
      whole.reports.map StepResult.number = [1, 2] ∧ whole.changes = [] := by
  intro source there back confirm
  let order : Permutation := ⟨[1, 0]⟩
  let layout (a b : Text) : Layout := .plain "Sub Foo"
    (.list ["(", ", "] [.plain a .nil, .plain b .nil] ")" (.plain "\nEnd Sub\n" .nil))
  let changed : Source := { source with text := (layout "b" "a").text }
  have hlayouts : Layouts order.size (fun _ => layout "a" "b") [source] :=
    .of_isRegular (by decide +kernel)
  have hlayouts' : Layouts order.size (fun _ => layout "b" "a") [changed] :=
    .of_isRegular (by decide +kernel)
  have hrun : ∃ p ∈ (Project.read [source]).toOption, ∃ target ∈ p.index.get? 1,
      p.index.lookUpQualified "M.Foo" none = .ok target ∧
      ReorderRequest.ofNames target ["b", "a"] = .ok ⟨target.id, order⟩ ∧
      Parameter.checkOrder target.reorderable order = .ok () ∧
      Reorder.Computes p target order.size (fun _ => layout "a" "b") := by
    decide +kernel
  have hrun' : ∃ p ∈ (Project.read [changed]).toOption, ∃ target ∈ p.index.get? 1,
      p.index.lookUpQualified "M.Foo" none = .ok target ∧
      ReorderRequest.ofNames target ["a", "b"] = .ok ⟨target.id, order⟩ ∧
      Parameter.checkOrder target.reorderable order = .ok () ∧
      Reorder.Computes p target order.size (fun _ => layout "b" "a") := by
    decide +kernel
  obtain ⟨p, hread, target, -, htarget, hrequest, hrules, hcomputes⟩ := hrun
  obtain ⟨p', hread', target', -, htarget', hrequest', hrules', hcomputes'⟩ := hrun'
  have hread := eq_ok_of_mem_toOption hread
  have hread' := eq_ok_of_mem_toOption hread'
  have hnames (s : Source) := List.pairwise_singleton (fun a b : Source => ¬ a.id.Same b.id) s
  obtain ⟨outcome, hresult, -, hupdate⟩ := hcomputes.shows.reorder_sources (hnames source) hread
    hlayouts (by decide) hrules (.mk confirm fun _ _ => none)
  obtain ⟨outcome', hresult', -, hupdate'⟩ := hcomputes'.shows.reorder_sources (hnames changed) hread'
    hlayouts' (by decide) hrules' (.mk confirm fun _ _ => none)
  have hchanged : reorderSources (fun _ => layout "a" "b") order [source] = [changed] := by
    decide +kernel
  have hrestored : reorderSources (fun _ => layout "b" "a") order [changed] = [source] := by
    decide +kernel
  rw [hchanged] at hupdate
  rw [hrestored] at hupdate'
  have hstep : there.run p confirm = .ok outcome := by
    rw [← hresult]
    simp only [there, Step.run, ReorderStep.run, ReorderStep.kind, ReorderStep.answers, htarget,
      hrequest, bind, Except.bind]
    rfl
  have hstep' : back.run p' confirm = .ok outcome' := by
    rw [← hresult']
    simp only [back, Step.run, ReorderStep.run, ReorderStep.kind, ReorderStep.answers, htarget',
      hrequest', bind, Except.bind]
    rfl
  have hfirst := run_singleton hread hstep
  have hsecond := run_singleton hread' hstep'
  rw [hupdate] at hfirst
  rw [hupdate'] at hsecond
  obtain ⟨-, hboth, haccounts⟩ := run_append (hnames source) [there] [back] confirm
  have hthere : update (differences [source] [changed]) [source] = [changed] := by decide +kernel
  have hback : update (differences [changed] [source]) [changed] = [source] := by decide +kernel
  have hsome : differences [source] [changed] ≠ [] := by decide +kernel
  have hsome' : differences [changed] [source] ≠ [] := by decide +kernel
  obtain ⟨whole, hwhole, hreports, htexts⟩ :=
    (hboth _ hfirst).2 _ (by rw [hthere]; exact hsecond)
  obtain ⟨final, -, hchanges⟩ := haccounts _ whole hwhole
  refine ⟨_, _, whole, hfirst, hsome, by rw [hthere]; exact hsecond, hsome', hwhole,
    by rw [hreports]; rfl, hchanges.isEmpty.mpr ?_⟩
  rw [← hchanges.updates, htexts]
  simp only [hthere, hback]

end Plan

end VbaRefactor
