import VbaRefactor.Proofs.Binding
import VbaRefactor.Proofs.Reorder.Effect
import VbaRefactor.Proofs.Syntax.Clauses

/-!
# Calls that are passed over

A call without arguments is neither changed nor reported when parameters are reordered. Where a call
has arguments without parentheses, they are seen if and only if its name heads a clause of its
statement. After a keyword, such as `Me`, or after a line number it does not.
-/

namespace VbaRefactor

theorem Place.arguments?_of_bind? {p : Place} {withs : WithStack} {m : Mention} {r : Reference}
    (h : p.bind? withs m = some r) (hcall : r.usage = .call) :
    (∃ arguments?, m.use = .call arguments? ∧ r.arguments? = arguments?) ∨
      (m.use = .read ∧ r.arguments? = some (p.tokens.noArguments m.name)) := by
  rcases bind?_cases h with ⟨-, rfl⟩ | ⟨-, d, -, usage, arguments?, rfl, hmakes⟩
  · cases hcall
  · cases hcall
    generalize m.use = use at hmakes
    cases hmakes with
    | call => exact .inl ⟨_, rfl, rfl⟩
    | readMember => exact .inr ⟨rfl, rfl⟩

namespace Reorder

variable {sources : List Source} {p : Project} {r : Reference}

/-- A call whose name an operand follows has arguments if and only if the name heads a clause. Only
then a reordering looks at it: it passes over a call without arguments, whatever the order, and else
only over one that gives all of them by name. -/
theorem arguments_empty_iff (h : Project.read sources = .ok p) (hr : r ∈ p.index.references)
    (hcall : r.usage = .call) :
    ∃ source ∈ sources, r.module = source.id ∧ ∃ s ∈ source.statements, ∃ i < s.length,
      r.selection.span = s.spanAt i ∧ (s.startsOperand (i + 1) = true →
        ∃ list, r.arguments? = some list ∧ (list.arguments = [] ↔ ¬ s.HeadsClause i) ∧
          ∀ d order, callRefill d r order = .ok none ↔ ¬ s.HeadsClause i ∨ list.everyNamed = true) := by
  obtain ⟨place, withs, m, hsource, hmodule, -, htokens, hm, hbind⟩ :=
    Project.exists_act_of_mem_references h hr
  have hleads := (Statement.mentions_of_mem_acts hm).leads
  have hselection : r.selection.span = place.tokens.spanAt m.name := by
    rw [(Place.bind?_eq_some hbind).2.1, Text.extent]
  refine ⟨place.source, hsource, hmodule, place.tokens, htokens, m.name, hleads.given, hselection, ?_⟩
  intro hnext
  have hlist : ∃ list, r.arguments? = some list ∧
      (list.arguments = [] ↔ ¬ place.tokens.HeadsClause m.name) := by
    rcases Statement.use_of_mem_acts hm hnext with ⟨hheads, list, huse, hsome⟩ | ⟨hnot, huse⟩ | ⟨_, huse⟩
    · rcases Place.arguments?_of_bind? hbind hcall with ⟨_, hcall, hlist⟩ | ⟨hread, -⟩
      · cases huse.symm.trans hcall
        exact ⟨list, hlist, iff_of_false hsome (not_not_intro hheads)⟩
      · cases huse.symm.trans hread
    · refine ⟨place.tokens.noArguments m.name, ?_, iff_of_true rfl hnot⟩
      rcases Place.arguments?_of_bind? hbind hcall with ⟨_, hcall, hlist⟩ | ⟨-, hlist⟩
      · rcases huse with huse | huse | huse
        · cases huse.symm.trans hcall
          exact hlist
        · cases huse.symm.trans hcall
        · cases huse.symm.trans hcall
      · exact hlist
    · rcases Place.arguments?_of_bind? hbind hcall with ⟨_, hcall, -⟩ | ⟨hread, -⟩
      · cases huse.symm.trans hcall
      · cases huse.symm.trans hread
  obtain ⟨list, hlist, hempty⟩ := hlist
  refine ⟨list, hlist, hempty, ?_⟩
  intro d order
  rw [callRefill_eq_none_iff, hcall, hlist, ← hempty]
  simp

/-- Both branches of a single-line `If` head clauses, so the arguments of both calls are seen. -/
theorem arguments_empty_iff_branches :
    let source : Source := ⟨⟨"P", "M"⟩, .standard,
      "Public Sub Foo(a, b)\nEnd Sub\n\nPublic Sub T(x)\n    If x Then Foo 1, 2 Else Foo x, 4\nEnd Sub\n".toList⟩
    ∃ p, Project.read [source] = .ok p ∧
      (p.index.references.filter fun r => r.usage = .call).length = 2 ∧
      ∀ r ∈ p.index.references, r.usage = .call →
        ∃ list, r.arguments? = some list ∧ list.arguments ≠ [] ∧
          ∀ d order, callRefill d r order ≠ .ok none := by
  intro source
  have hrun : ∃ p ∈ (Project.read [source]).toOption,
      (p.index.references.filter fun r => r.usage = .call).length = 2 ∧
      ∀ r ∈ p.index.references, r.usage = .call →
        (∀ list ∈ r.arguments?, list.everyNamed = false) ∧
        ∀ s ∈ source.statements, ∀ i < s.length, r.selection.span = s.spanAt i →
          s.startsOperand (i + 1) = true ∧ s.HeadsClause i := by
    decide +kernel
  obtain ⟨p, hread, hlen, hplaces⟩ := hrun
  have hread := eq_ok_of_mem_toOption hread
  refine ⟨p, hread, hlen, ?_⟩
  intro r hr hcall
  obtain ⟨found, hfound, -, s, hs, i, hi, hspan, hlist⟩ := arguments_empty_iff hread hr hcall
  cases List.mem_singleton.mp hfound
  obtain ⟨hnamed, hplace⟩ := hplaces r hr hcall
  obtain ⟨hnext, hheads⟩ := hplace s hs i hi hspan
  obtain ⟨list, harguments, hempty, hnone⟩ := hlist hnext
  refine ⟨list, harguments, fun hnil => hempty.mp hnil hheads, ?_⟩
  intro d order hrefill
  rcases (hnone d order).mp hrefill with hnot | hevery
  · exact hnot hheads
  · rw [hnamed list harguments] at hevery
    cases hevery

/-- After `Me` the name of a call does not head the statement: the call is recorded without
arguments, though a number follows. -/
theorem call_loses_arguments_after_me :
    let source : Source := ⟨⟨"P", "Class1"⟩, .classModule,
      "Public Sub Foo(a, b)\nEnd Sub\n\nPublic Sub Test()\n    Me.Foo 1, 2\nEnd Sub\n".toList⟩
    ∃ p, Project.read [source] = .ok p ∧ ∃ r ∈ p.index.references, r.usage = .call ∧
      (∃ d, p.index.get? r.declaration = some d ∧ d.kind.isMember = true) ∧
      (∃ list, r.arguments? = some list ∧ list.arguments = []) ∧
      ∃ s ∈ source.statements, ∃ i < s.length, r.selection.span = s.spanAt i ∧
        s.startsOperand (i + 1) = true := by
  intro source
  have hrun : ∃ p ∈ (Project.read [source]).toOption, ∃ r ∈ p.index.references, r.usage = .call ∧
      (∃ d ∈ p.index.get? r.declaration, d.kind.isMember = true) ∧
      (∃ list ∈ r.arguments?, list.arguments = []) ∧
      ∃ s ∈ source.statements, ∃ i < s.length, r.selection.span = s.spanAt i ∧
        s.startsOperand (i + 1) = true := by
    decide +kernel
  exact exists_ok_of_toOption hrun

end Reorder

end VbaRefactor
