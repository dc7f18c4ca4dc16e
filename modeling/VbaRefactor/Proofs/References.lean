import VbaRefactor.Proofs.ModuleOrder
import VbaRefactor.Proofs.Syntax.Separation

/-!
# References are well formed

Each reference of a module is the use of another name in its text, and each list of arguments stands
somewhere else. Of two references of a module one comes before the other, and so do their lists: the
statements of the module stand one after another, and in a statement the mentions are apart.
-/

namespace VbaRefactor

open List Statement

variable {m : Mention} {r r' : Reference} {source : Source} {s : Statement}

namespace Outline

variable {o o' : Outline} {block block' : Construct}

/-! ## Bodies -/

/-- The statements that are kept for members come in the order in which they were read. -/
theorem exists_bodies_of_steps {rest : List Statement} (h : o.steps block rest = .ok (o', block')) :
    ∃ kept, o'.bodies = o.bodies ++ kept ∧ (kept.map MemberStatement.tokens).Sublist rest := by
  induction rest generalizing o block with
  | nil =>
    cases h
    exact ⟨[], (append_nil _).symm, .slnil⟩
  | cons s rest ih =>
    rw [steps] at h
    split at h
    · cases h
    · rename_i hstep
      obtain ⟨kept, hkept, hsub⟩ := ih h
      rcases bodies_step hstep with hsame | ⟨opened, -, -, hadded⟩
      · exact ⟨kept, by rw [hkept, hsame], hsub.cons s⟩
      · refine ⟨⟨opened.declaration, s⟩ :: kept, ?_, hsub.cons_cons s⟩
        rw [hkept, hadded, append_assoc, singleton_append]

theorem bodies_sublist {base : DeclarationId} (h : read base source = .ok o) :
    (o.bodies.map MemberStatement.tokens).Sublist source.statements := by
  obtain ⟨block, -, hsteps⟩ := steps_of_read h
  obtain ⟨kept, hkept, hsub⟩ := exists_bodies_of_steps hsteps
  rw [hkept]
  exact hsub

end Outline

/-! ## One before the other -/

/-- The reference is the use of a name in a statement. -/
structure Reference.Uses (r : Reference) (s : Statement) (m : Mention) : Prop where
  mentioned : s.Mentions m
  selection : r.selection.span = s.spanAt m.name
  lists : ∀ list ∈ r.arguments?, list.arguments ≠ [] → m.use.arguments? = some list

/-- The name of a reference and the start of its arguments are in front of the name of another. -/
structure Reference.Before (r r' : Reference) : Prop where
  name : r.selection.span.stop ≤ r'.selection.span.start
  lists : ∀ list ∈ r.arguments?, list.arguments ≠ [] →
    list.extent.start ≤ r'.selection.span.start

/-- Two references have different names, and no list of arguments in common. -/
def Reference.Apart (r r' : Reference) : Prop :=
  r.selection.span ≠ r'.selection.span ∧
    ∀ list ∈ r.arguments?, ∀ list' ∈ r'.arguments?, list.arguments ≠ [] → list'.arguments ≠ [] →
      list.extent ≠ list'.extent

theorem Reference.Apart.symm (h : r.Apart r') : r'.Apart r :=
  ⟨h.1.symm, fun list hlist list' hlist' hsome hsome' =>
    (h.2 list' hlist' list hlist hsome' hsome).symm⟩

variable {list : ArgumentList} {p : Place} {text : Text}

theorem Place.uses_of_bind? {withs : WithStack} (hm : p.tokens.Mentions m)
    (h : p.bind? withs m = some r) : r.Uses p.tokens m := by
  refine ⟨hm, by rw [(bind?_eq_some h).2.1, Text.extent], ?_⟩
  intro list hlist hsome
  rcases bind?_cases h with ⟨-, rfl⟩ | ⟨-, d, -, usage, arguments?, rfl, hmakes⟩
  · cases hlist
  · change arguments? = some list at hlist
    rcases hmakes.arguments with rfl | rfl
    · exact hlist
    · cases hlist
      exact absurd rfl hsome

namespace Reference

variable {text : Text} {s' : Statement} {m' : Mention}

theorem Uses.lt (h : r.Uses s m) (hs : s.StandsIn text) :
    r.selection.span.start < r.selection.span.stop := by
  obtain ⟨t, ht, hspan⟩ := exists_spanAt h.mentioned.leads.given
  rw [h.selection, hspan]
  exact hs.lt ht

/-- The arguments of a reference begin behind its name. -/
theorem Uses.behind (h : r.Uses s m) (hs : s.StandsIn text) {list : ArgumentList}
    (hlist : list ∈ r.arguments?) (hsome : list.arguments ≠ []) :
    r.selection.span.stop ≤ list.extent.start := by
  have hfollows := h.mentioned.follows hs (h.lists list hlist hsome) hsome
  have hnext := hfollows.next
  have hname : s[m.name]? = some s[m.name] := getElem?_eq_getElem (by omega)
  have htoken : s[m.name + 1]? = some s[m.name + 1] := getElem?_eq_getElem hnext
  have hle := hs.stop_le hname htoken (Nat.lt_succ_self _)
  have hwidth := hs.lt (mem_of_getElem? htoken)
  have hbegins := hfollows.begins
  simp only [spanAt, htoken, Option.map_some, Option.getD_some, Token.span] at hbegins
  rw [h.selection, spanAt, hname]
  show s[m.name].stop ≤ list.extent.start
  omega

/-- In a statement the names decide which reference comes first. -/
theorem Uses.before (h : r.Uses s m) (h' : r'.Uses s m') (hs : s.StandsIn text)
    (hlt : m.name < m'.name) : r.Before r' := by
  have hgiven := h'.mentioned.leads.given
  have hname : s[m.name]? = some s[m.name] := getElem?_eq_getElem (by omega)
  have hname' : s[m'.name]? = some s[m'.name] := getElem?_eq_getElem hgiven
  have hselection : r.selection.span = s[m.name].span := by
    rw [h.selection, spanAt, hname]
    rfl
  have hselection' : r'.selection.span = s[m'.name].span := by
    rw [h'.selection, spanAt, hname']
    rfl
  refine ⟨?_, ?_⟩
  · rw [hselection, hselection']
    exact hs.stop_le hname hname' hlt
  intro list hlist hsome
  have hfollows := h.mentioned.follows hs (h.lists list hlist hsome) hsome
  have htoken : s[m.name + 1]? = some s[m.name + 1] := getElem?_eq_getElem hfollows.next
  have hwidth := hs.lt (mem_of_getElem? htoken)
  have hbegins := hfollows.begins
  rw [hselection']
  show list.extent.start ≤ s[m'.name].start
  rcases Nat.lt_or_eq_of_le (Nat.succ_le_of_lt hlt) with hbetween | hnext
  · have hle := hs.stop_le htoken hname' hbetween
    simp only [spanAt, htoken, Option.map_some, Option.getD_some, Token.span] at hbegins
    omega
  · -- The token behind the first name is the second name, and no parenthesis.
    rcases hbegins with hstart | ⟨hparen, -⟩
    · rw [hstart, show m.name + 1 = m'.name from hnext, spanAt, hname']
      exact Nat.le_refl _
    · have hisName : s.isName m'.name = true := h'.mentioned.isName
      rw [show m.name + 1 = m'.name from hnext, isPunct, hname', Option.any_some,
        Token.isPunct, Bool.and_eq_true, beq_iff_eq] at hparen
      rw [isName, hname', Option.any_some, hparen.1] at hisName
      cases hisName

/-- A reference in an earlier statement comes first. -/
theorem Uses.before_of_ordered (h : r.Uses s m) (h' : r'.Uses s' m') (hs : s.StandsIn text)
    (hle : ∀ x ∈ s, ∀ y ∈ s', x.stop ≤ y.start) : r.Before r' := by
  obtain ⟨t, ht, hspan⟩ := exists_spanAt h.mentioned.leads.given
  obtain ⟨t', ht', hspan'⟩ := exists_spanAt h'.mentioned.leads.given
  refine ⟨?_, ?_⟩
  · rw [h.selection, h'.selection, hspan, hspan']
    exact hle t ht t' ht'
  intro list hlist hsome
  have hfollows := h.mentioned.follows hs (h.lists list hlist hsome) hsome
  obtain ⟨u, hu, hspanu⟩ := exists_spanAt hfollows.next
  have hend := hle u hu t' ht'
  have hwidth := hs.lt hu
  have hbegins := hfollows.begins
  simp only [hspanu, Token.span] at hbegins
  rw [h'.selection, hspan']
  show list.extent.start ≤ t'.start
  omega

/-- Of two references that come one before the other neither has anything of the other. -/
theorem Before.apart (h : r.Before r') (hr : r.Uses s m) (hr' : r'.Uses s' m')
    (hs : s.StandsIn text) (hs' : s'.StandsIn text) : r.Apart r' := by
  have hlt := hr.lt hs
  have hlt' := hr'.lt hs'
  have hname := h.name
  refine ⟨?_, ?_⟩
  · intro heq
    rw [heq] at hname hlt
    omega
  · intro list hlist list' hlist' hsome hsome' heq
    have hstart := h.lists list hlist hsome
    have hbehind := hr'.behind hs' hlist' hsome'
    rw [heq] at hstart
    omega

end Reference

/-! ## All references of a module -/

/-- The references of mentions that are apart are apart. -/
theorem Place.perform_apart (hs : p.tokens.StandsIn text) {acts : List Act}
    (hacts : ∀ m, .mention m ∈ acts → p.tokens.Mentions m)
    (hdistinct : (acts.filterMap Act.mention?).Pairwise fun a b => a.name ≠ b.name)
    (withs : WithStack) : (p.perform withs acts).1.Pairwise Reference.Apart := by
  induction acts generalizing withs with
  | nil => exact .nil
  | cons act acts ih =>
    have hrest := fun m hm => hacts m (mem_cons_of_mem _ hm)
    cases act with
    | mention m =>
      obtain ⟨hfirst, hdistinct⟩ := pairwise_cons.mp hdistinct
      refine pairwise_append.mpr ⟨?_, ih hrest hdistinct withs, ?_⟩
      · cases p.bind? withs m <;> simp
      intro r hr r' hr'
      obtain ⟨withs', m', hm', hbind'⟩ := exists_bind_of_mem_perform hr'
      have huses := uses_of_bind? (hacts m mem_cons_self) (Option.mem_toList.mp hr)
      have huses' := uses_of_bind? (hrest m' hm') hbind'
      have hne := hfirst m' (mem_filterMap.mpr ⟨_, hm', rfl⟩)
      rcases Nat.lt_or_gt_of_ne hne with hlt | hgt
      · exact (huses.before huses' hs hlt).apart huses huses' hs hs
      · exact ((huses'.before huses hs hgt).apart huses' huses hs hs).symm
    | enterNew type? => exact ih hrest hdistinct _
    | enterWith chain? => exact ih hrest hdistinct _
    | leaveWith => exact ih hrest hdistinct _

theorem Scope.references_apart {scope : Scope} {bodies : List MemberStatement}
    (hstands : ∀ body ∈ bodies, body.tokens.StandsIn source.text)
    (hordered : (bodies.map MemberStatement.tokens).Pairwise
      fun a b => ∀ x ∈ a, ∀ y ∈ b, x.stop ≤ y.start) (current? : Option DeclarationId)
    (withs : WithStack) :
    (scope.references source current? withs bodies).Pairwise Reference.Apart := by
  induction bodies generalizing current? withs with
  | nil => exact .nil
  | cons body bodies ih =>
    obtain ⟨hfirst, hordered⟩ := pairwise_cons.mp hordered
    have hbody := hstands body mem_cons_self
    have hrest := (forall_mem_cons.mp hstands).2
    refine pairwise_append.mpr ⟨?_, ih hrest hordered _ _, ?_⟩
    · exact Place.perform_apart hbody (fun m hm => mentions_of_mem_acts hm)
        (acts_distinct body.tokens) _
    · intro r hr r' hr'
      obtain ⟨_, m, hm, hbind⟩ := Place.exists_bind_of_mem_perform hr
      obtain ⟨body', hbody', _, m', hm', hbind'⟩ := Scope.exists_act_of_mem_references hr'
      have huses := Place.uses_of_bind? (mentions_of_mem_acts hm) hbind
      have huses' := Place.uses_of_bind? (mentions_of_mem_acts hm') hbind'
      have hle := hfirst body'.tokens (mem_map_of_mem hbody')
      exact (huses.before_of_ordered huses' hbody hle).apart huses huses' hbody (hrest body' hbody')

/-- The slots of a list lie in it one after another, and only those that are missing have no width. -/
structure ArgumentList.WellFormed (list : ArgumentList) : Prop where
  inside : ∀ a ∈ list.arguments, list.extent.start ≤ a.span.start ∧ a.span.stop ≤ list.extent.stop
  ordered : list.arguments.Pairwise fun a b => a.span.stop < b.span.start
  missing : ∀ a ∈ list.arguments, a.kind = .missing → a.span.start = a.span.stop
  given : ∀ a ∈ list.arguments, a.kind ≠ .missing → a.span.start < a.span.stop

theorem ArgumentList.MarkedIn.wellFormed (h : list.MarkedIn text) : list.WellFormed := by
  have hspan {a : Argument} (ha : a ∈ list.arguments) : a.span ∈ list.arguments.map Argument.span :=
    mem_map_of_mem ha
  refine ⟨fun a ha => h.marked.inside _ (hspan ha), pairwise_map.mp h.marked.parted,
    fun a ha => (h.missing a ha).mp, ?_⟩
  intro a ha hgiven
  exact Nat.lt_of_le_of_ne (h.marked.slot _ (hspan ha)).le (mt (h.missing a ha).mpr hgiven)

theorem Statement.Supplies.wellFormed (h : s.Supplies list) (hs : s.StandsIn text) :
    list.WellFormed := by
  by_cases hnone : list.arguments = []
  · refine ⟨?_, ?_, ?_, ?_⟩
    all_goals simp [hnone]
  · exact (h.markedIn hs hnone).wellFormed

namespace Project

variable {sources : List Source} {p : Project}

/-- No two references of a module have a name or a list of arguments in common. -/
theorem pairwise_references (hnames : sources.Pairwise fun a b => ¬ a.id.Same b.id)
    (h : read sources = .ok p) :
    p.index.references.Pairwise fun r r' => r.module.Same r'.module → r.Apart r' := by
  obtain ⟨found, hfound, rfl⟩ := exists_outlines_of_read h
  obtain ⟨rfl, -, -⟩ := outlines_readFrom hfound
  refine pairwise_flatMap.mpr ⟨?_, ?_⟩
  · intro o ho
    have hsub := Outline.bodies_sublist (read_of_mem hfound ho)
    have hstands : ∀ body ∈ o.bodies, body.tokens.StandsIn o.source.text := fun body hbody =>
      standsIn_of_mem_ofTokens (hsub.subset (mem_map_of_mem hbody))
    have hordered := (ofTokens_ordered o.source.text).sublist hsub
    refine List.Pairwise.imp ?_ (Scope.references_apart hstands hordered none [])
    exact fun happart _ => happart
  · refine (pairwise_map.mp hnames).imp ?_
    intro o o' hne r hr r' hr' hsame
    rw [(Scope.references_supplied hr).1, (Scope.references_supplied hr').1] at hsame
    exact absurd hsame hne

/-- References are well formed: no two of a module are the use of one name or have one list with
arguments, each name lies inside its qualified name and that in the text of its module, between
characters, and the slots of each list are in order, disjoint and inside of it. -/
theorem references_wellFormed (hnames : sources.Pairwise fun a b => ¬ a.id.Same b.id)
    (h : read sources = .ok p) :
    (p.index.references.Pairwise fun r r' => r.module.Same r'.module →
      r.selection.span ≠ r'.selection.span ∧
        ∀ list ∈ r.arguments?, ∀ list' ∈ r'.arguments?, list.arguments ≠ [] →
          list'.arguments ≠ [] → list.extent ≠ list'.extent) ∧
    ∀ r ∈ p.index.references,
      (∃ s ∈ sources, r.module = s.id ∧
        r.qualified.span.start ≤ r.selection.span.start ∧
        r.selection.span.start < r.selection.span.stop ∧
        r.selection.span.stop ≤ r.qualified.span.stop ∧
        s.text.IsBoundary r.qualified.span.start ∧ s.text.IsBoundary r.qualified.span.stop ∧
        s.text.IsBoundary r.selection.span.start ∧ s.text.IsBoundary r.selection.span.stop) ∧
      ∀ list ∈ r.arguments?, list.WellFormed := by
  refine ⟨pairwise_references hnames h, ?_⟩
  intro r hr
  obtain ⟨s, hs, hmodule, hstands⟩ := standsIn_of_mem_references h hr
  refine ⟨⟨s, hs, hmodule, hstands.le, hstands.some, Nat.le_of_eq hstands.stop.symm,
    hstands.startBound, ?_, hstands.nameBound, hstands.stopBound⟩, ?_⟩
  · rw [hstands.stop]
    exact hstands.stopBound
  · intro list hlist
    obtain ⟨s, -, -, hlists⟩ := supplied_of_mem_references h hr
    obtain ⟨statement, hstatement, hsupplies⟩ := hlists list hlist
    exact hsupplies.wellFormed (Statement.standsIn_of_mem_ofTokens hstatement)

/-- Calls inside the arguments of a call, one of which is left out, in a branch of an `If`. -/
theorem references_wellFormed_nested :
    let caller : Source := ⟨⟨"P", "Class1"⟩, .classModule,
      "Public Sub Test(x)\n    If x Then Log Twice(1), , Main.Twice(x) Else Log 2, 3\nEnd Sub\n".toList⟩
    let callee : Source := ⟨⟨"P", "Main"⟩, .standard,
      "Public Sub Log(a, Optional b, Optional c)\nEnd Sub\nPublic Function Twice(a)\n      End Function\n".toList⟩
    ∃ p, read [caller, callee] = .ok p ∧
      p.index.references.map (fun r => (r.arguments?.map (·.arguments.length)).getD 0) = [3, 2, 1, 1] ∧
      (p.index.references.map fun r => r.selection.span).Nodup ∧
      ∀ r ∈ p.index.references, ∀ list ∈ r.arguments?, list.WellFormed := by
  intro caller callee
  have hrun : ∃ p ∈ (read [caller, callee]).toOption,
      p.index.references.map (fun r => (r.arguments?.map (·.arguments.length)).getD 0) = [3, 2, 1, 1] ∧
      ∀ r ∈ p.index.references, ∀ r' ∈ p.index.references, r.module.Same r'.module := by
    decide +kernel
  obtain ⟨p, hp, hlengths, hsame⟩ := hrun
  have hread := eq_ok_of_mem_toOption hp
  obtain ⟨hpairs, hall⟩ := references_wellFormed (by decide) hread
  refine ⟨p, hread, hlengths, ?_, fun r hr => (hall r hr).2⟩
  refine List.pairwise_map.mpr ((List.Pairwise.and_mem.mp hpairs).imp ?_)
  rintro r r' ⟨hr, hr', happart⟩
  exact (happart (hsame r hr r' hr')).1

end Project

end VbaRefactor
