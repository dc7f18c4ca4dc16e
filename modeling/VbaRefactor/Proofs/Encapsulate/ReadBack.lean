import VbaRefactor.Proofs.Encapsulate.Queued
import VbaRefactor.Proofs.Encapsulate.Requested
import VbaRefactor.Proofs.Syntax.Renaming

/-!
# Reading what an encapsulation writes

An encapsulation changes the statements of its fields, adds accessors and renames uses. Where all that
it writes is `Clear`, the new texts can be read, and the module declares what it declared, with private
fields and accessors in the place of the encapsulated fields.
-/

namespace VbaRefactor

open List Outline Project Declaration

variable {requests : List FieldRequest} {found : List Outline} {plans : List PropertyPlan}
  {sources : List Source} {m : ModuleContent} {indent? : Option Nat} {o : Outline}

namespace Encapsulate

open Lexer
open Refill (EditPart Made changesOf editsOf)

/-- What an encapsulation writes is read as it is meant. -/
@[mk_iff]
structure Clear (p : Project) (m : ModuleContent) (plans : List PropertyPlan) : Prop where
  place : HasPlace m
  named : ∀ plan ∈ plans, plan.Named m.source.text
  splittable : ∀ s ∈ touched m plans, Splittable m.source.text plans s
  /-- No two statements that are edited share a line. -/
  apart : (touched m plans).Pairwise fun a b => a.extent.lineEnd < b.extent.lineStart
  uses : ∀ plan ∈ plans, ∀ r ∈ p.index.referencesTo plan.field.id,
    IsRenamed p m.source.id false plan r →
      (∀ user ∈ (p.moduleOf r.module).toOption,
        Replaceable user.source.text r.selection.span (newName m.source.id plan false r).2) ∧
      /- The uses do not stand on the lines of the statements either. -/
      (r.module.Same m.source.id → ∀ s ∈ touched m plans,
        r.selection.lineStart < s.extent.lineStart ∨ s.extent.lineEnd < r.selection.lineStart)

instance (p : Project) (m : ModuleContent) (plans : List PropertyPlan) : Decidable (Clear p m plans) :=
  decidable_of_iff _ (clear_iff p m plans).symm

/-! ## The edits of the module -/

section

variable {p : Project} {edits : List Edit} {e : Edit}

theorem statementEdits_eq (text : Text) (plans : List PropertyPlan) (inRecord : Bool)
    (statements : List FieldStatement) :
    statementEdits text plans inRecord [] statements = statements.flatMap fun s =>
      (statementEdit? text s (remainingLines text s plans inRecord)).toList := by
  induction statements with
  | nil => rfl
  | cons s rest ih => rw [statementEdits, ih, append_nil, flatMap_cons]

theorem moduleEdits_none (h : moduleEdits p m plans none indent? = .ok edits) :
    ∃ statements texts, findStatements m false [] [] plans = .ok (statements, texts) ∧
      edits = statementEdits m.source.text plans false [] statements ++ [accessorsEdit m plans] := by
  rw [moduleEdits] at h
  obtain ⟨⟨statements, texts⟩, hfound, h⟩ := bind_eq_ok_iff.mp h
  cases h
  exact ⟨statements, texts, hfound, rfl⟩

theorem isSome_range?_statementEdit? {text : Text} {s : FieldStatement} {lines : List Text}
    (h : e ∈ statementEdit? text s lines) : e.range?.isSome = true := by
  rw [statementEdit?] at h
  split at h
  · cases h
    rfl
  · split at h
    · cases h
      rfl
    · cases h

theorem range?_accessorsEdit (m : ModuleContent) (plans : List PropertyPlan) :
    (accessorsEdit m plans).range? = none := by
  rw [accessorsEdit]
  split <;> rfl

/-- One insertion among edits of ranges. -/
theorem edits_insert {before after : List Edit} (he : e.range? = none)
    (h : ∀ e ∈ before ++ after, e.range?.isSome = true) :
    ((before ++ [e]) ++ after).filter (·.range?.isNone) = [e] ∧
      ∀ f : Edit, f.range?.isSome = true → (f ∈ (before ++ [e]) ++ after ↔ f ∈ before ++ after) := by
  obtain ⟨hbefore, hafter⟩ := forall_mem_append.mp h
  have hnone := Edit.filter_isNone_eq_nil hbefore
  refine ⟨by simp [filter_append, hnone, Edit.filter_isNone_eq_nil hafter, he], ?_⟩
  intro f hf
  have hne : f ≠ e := by
    rintro rfl
    rw [he] at hf
    cases hf
  simp [hne]

end

/-- The statements, the accessors and the uses in the module of the fields are rewritten together. -/
theorem exists_rewrites {base : DeclarationId} {refills : List Refill} {wordEdits : List Edit}
    (hread : read base m.source = .ok o) (hitems : m.items = o.items)
    (ht : Text.ClosedBy m.source.text.lineEnding m.source.text) (hne : plans ≠ [])
    (hfields : ∀ plan ∈ plans,
      (plan.field.id, plan.field.selection.span, plan.field.profile) ∈ o.members)
    (hplace : HasPlace m) (hnamed : ∀ plan ∈ plans, plan.Named m.source.text)
    (hsplit : ∀ s ∈ touched m plans, Splittable m.source.text plans s)
    (hapart : (touched m plans).Pairwise fun a b => a.extent.lineEnd < b.extent.lineStart)
    (hwords : ∀ r ∈ refills, RenamesWord m.source o r ∧ ∀ s ∈ touched m plans,
      m.source.text.lineOf r.region.start < s.extent.lineStart ∨
        s.extent.lineEnd < m.source.text.lineOf r.region.start)
    (hedits : Refill.edits m.source.text refills = .ok wordEdits) :
    ∃ parts, Rewrites m.source.text parts (some (accessorsEdit m plans)) (accessorProfiles plans) ∧
      editsOf parts = statementEdits m.source.text plans false [] (touched m plans) ++ wordEdits ∧
      (changesOf parts).flatMap Patch.removed =
        ((touched m plans).flatMap (plansIn plans)).map (·.field.profile) ∧
      (changesOf parts).flatMap Patch.added =
        ((touched m plans).flatMap (plansIn plans)).map backingProfile := by
  -- The parts of the statements and those of the words.
  have hexists : ∀ s ∈ touched m plans, ∃ part, IsPart m.source.text plans s part := by
    intro s hs
    obtain ⟨hmem, hsome⟩ := mem_filter.mp hs
    rw [hitems] at hmem
    exact exists_isPart hread ht hmem (by simpa using hsome) hfields hnamed (hsplit s hs)
  have : Nonempty (EditPart Patch) := ⟨.untouched 0⟩
  choose! partOf hpart using hexists
  obtain ⟨wordParts, hmade, hwordEdits, hranged, hchanges, hranges⟩ :=
    exists_renameParts hread ht (fun r hr => (hwords r hr).1) hedits
  have hmem {part : EditPart Patch} (h : part ∈ (touched m plans).map partOf) :
      ∃ s ∈ touched m plans, IsPart m.source.text plans s part := by
    obtain ⟨s, hs, rfl⟩ := mem_map.mp h
    exact ⟨s, hs, hpart s hs⟩
  have hstatements : editsOf ((touched m plans).map partOf) =
      statementEdits m.source.text plans false [] (touched m plans) := by
    rw [statementEdits_eq, editsOf, flatMap_map]
    exact flatMap_congr fun s hs => (hpart s hs).edits
  refine ⟨(touched m plans).map partOf ++ wordParts, ⟨?_, ?_, ?_, ?_, ?_, ?_⟩, ?_, ?_, ?_⟩
  · exact forall_mem_append.mpr ⟨fun part h => (hmem h).choose_spec.2.makes, hmade.makes⟩
  · refine pairwise_append.mpr ⟨?_, hmade.apart.imp .inl, ?_⟩
    · rw [pairwise_map]
      refine (List.Pairwise.and_mem.mp hapart).imp ?_
      rintro a b ⟨ha, hb, hlt⟩
      rw [(hpart a ha).range, (hpart b hb).range]
      exact .inl hlt
    · intro part h word hword
      obtain ⟨s, hs, hpart⟩ := hmem h
      obtain ⟨r, hr, hrange⟩ := hranges word hword
      rw [hpart.range, hrange]
      exact ((hwords r hr).2 s hs).symm
  · intro c hc
    rw [changesOf, flatMap_append] at hc
    rcases mem_append.mp hc with hc | hc
    · obtain ⟨part, h, hc⟩ := mem_flatMap.mp hc
      obtain ⟨s, -, hpart⟩ := hmem h
      exact hpart.fits c hc
    · exact (hchanges c hc).1
  · rw [editsOf, flatMap_append]
    refine forall_mem_append.mpr ⟨?_, by rw [← editsOf, hwordEdits]; exact hranged⟩
    intro e he
    obtain ⟨part, h, he⟩ := mem_flatMap.mp he
    obtain ⟨s, -, hpart⟩ := hmem h
    rw [hpart.edits] at he
    exact isSome_range?_statementEdit? (Option.mem_toList.mp he)
  · intro front rest hps hfront
    refine forall_mem_append.mpr ⟨?_, ?_⟩
    · intro part h
      obtain ⟨s, -, hpart⟩ := hmem h
      exact hpart.whole front rest hps hfront
    · intro word hword
      obtain ⟨r, -, hrange⟩ := hranges word hword
      rw [hrange]
      exact Nat.lt_or_ge _ _
  · exact .inr ⟨_, rfl, inserts_accessorsEdit ht (fun plan hplan => (hnamed plan hplan).writable) hne
      hread hitems hplace⟩
  · rw [editsOf, flatMap_append, ← editsOf, ← editsOf, hstatements, hwordEdits]
  · rw [changesOf, flatMap_append, flatMap_append, ← changesOf, ← changesOf,
      flatMap_eq_nil_iff.mpr fun c hc => (hchanges c hc).2.1, append_nil, changesOf,
      flatMap_map, flatMap_assoc, map_flatMap]
    exact flatMap_congr fun s hs => (hpart s hs).removed
  · rw [changesOf, flatMap_append, flatMap_append, ← changesOf, ← changesOf,
      flatMap_eq_nil_iff.mpr fun c hc => (hchanges c hc).2.2, append_nil, changesOf,
      flatMap_map, flatMap_assoc, map_flatMap]
    exact flatMap_congr fun s hs => (hpart s hs).added

/-! ## All modules -/

/-- The declaration is one of the encapsulated fields. -/
def isPlanned (plans : List PropertyPlan) (d : Declaration) : Bool := plans.any (·.field.id = d.id)

section

variable {state? : Option RecordState} (hfound : outlines 0 sources = .ok found)
  (hnames : (found.map source).Pairwise fun a b => ¬ a.id.Same b.id)
  (planning : Planning (.ofOutlines found) requests state?) (ho : o ∈ found)
  (hsame : o.source.id.Same planning.first.module)

include hfound hnames ho hsame

/-- The encapsulated fields are declared at the level of their module. -/
theorem field_mem_moduleMembers : ∀ plan ∈ planning.plans,
    plan.field ∈ o.declarations.filter (·.parent? = some o.base) := by
  intro plan hplan
  obtain ⟨request, -, -, hfield, -⟩ := exists_of_forall₂ planning.plansOf hplan
  obtain ⟨owner, howner, hparent⟩ := hfield.scope
  rw [← moduleMembers_eq hfound hnames ho (hsame.trans (planning.apart.2 plan hplan)),
    Index.moduleMembers, howner]
  exact mem_filter.mpr ⟨mem_of_getElem? hfield.found, by simpa using hparent⟩

theorem filter_isPlanned_perm :
    ((o.declarations.filter (·.parent? = some o.base)).filter (isPlanned planning.plans)).Perm
      (planning.plans.map PropertyPlan.field) := by
  have hids := (nodup_ids (read_of_mem hfound ho)).sublist
    ((filter_sublist (p := fun d => decide (d.parent? = some o.base))).map _)
  have hfields := field_mem_moduleMembers hfound hnames planning ho hsame
  have hnodup : (planning.plans.map PropertyPlan.field).Nodup := by
    have hplans := planning.apart.1
    rw [← Function.comp_def Declaration.id, ← map_map] at hplans
    exact hplans.of_map
  refine (perm_ext_iff_of_nodup (hids.of_map.filter _) hnodup).mpr ?_
  intro d
  rw [mem_filter, isPlanned, any_eq_true, mem_map]
  constructor
  · rintro ⟨hd, plan, hplan, hid⟩
    refine ⟨plan, hplan, inj_on_of_nodup_map hids (hfields plan hplan) hd ?_⟩
    simpa using hid
  · rintro ⟨plan, hplan, rfl⟩
    exact ⟨hfields plan hplan, plan, hplan, by simp⟩

/-- Where the planned fields and nothing else is given up, the others stay. -/
theorem profiles_perm {new added : List Profile}
    (h : (new ++ planning.plans.map (·.field.profile)).Perm (o.profiles ++ added)) :
    new.Perm (((o.declarations.filter (·.parent? = some o.base)).filter
      (!isPlanned planning.plans ·)).map profile ++ added) := by
  have hplanned := (filter_isPlanned_perm hfound hnames planning ho hsame).map profile
  rw [map_map] at hplanned
  have hall := (filter_append_perm (isPlanned planning.plans)
    (o.declarations.filter (·.parent? = some o.base))).map profile
  rw [map_append] at hall
  rw [profiles_eq o] at h
  refine (perm_append_right_iff (planning.plans.map (·.field.profile))).mp (h.trans ?_)
  refine (hall.symm.append_right _).trans (((hplanned.append_right _).append_right _).trans ?_)
  rw [append_assoc]
  exact perm_append_comm

end

section

variable {outcome : Outcome} {state? : Option RecordState}
  (hnames : (found.map source).Pairwise fun a b => ¬ a.id.Same b.id)
  {planning : Planning (.ofOutlines found) requests state?} {renames : ModuleMap (List Refill)}
  (hcarries : planning.Carries indent? renames outcome) (ho : o ∈ found)

include hnames hcarries ho

omit hcarries in
theorem moduleOf_of_same {k : ModuleName} (h : k.Same o.source.id) :
    (ofOutlines found).moduleOf k = .ok ⟨o.source, o.items⟩ := by
  rw [moduleOf, ModuleMap.get?_congr _ h, get?_modules_of_mem hnames ho]

/-- The refills of a module rename words in its members, where words take the place of words there. -/
theorem renamesWord_of_mem {P : Nat → Prop}
    (huses : ∀ plan ∈ planning.plans, ∀ r ∈ (ofOutlines found).index.referencesTo plan.field.id,
      IsRenamed (.ofOutlines found) planning.module.source.id state?.isSome plan r →
        r.module.Same o.source.id →
          ∃ name, newName planning.module.source.id plan state?.isSome r = (r.selection.span, name) ∧
            isWritable name = true ∧ Replaceable o.source.text r.selection.span name ∧
            P r.selection.lineStart)
    (refill : Refill) (h : refill ∈ (renames.get? o.source.id).getD []) :
    RenamesWord o.source o refill ∧ P (o.source.text.lineOf refill.region.start) := by
  obtain ⟨plan, hplan, r, hr, hrenamed, hmodule, rfl⟩ := hcarries.mem_iff.mp h
  obtain ⟨name, hname, hwritable, hreplaceable, hline⟩ := huses plan hplan r hr hrenamed hmodule
  obtain ⟨o', ho', hid, body, hbody, t, ht, hselection⟩ :=
    exists_token_of_mem_references (mem_of_mem_filter hr)
  rw [hid] at hmodule
  have hsame : o' = o :=
    @eq_of_pairwise_not _ (fun a b : Outline => a.source.id.Same b.source.id) (fun _ _ h => h.symm) _
      (pairwise_map.mp hnames) o' o ho' ho hmodule
  subst hsame
  have hspan : r.selection.span = t.span := by rw [hselection]; rfl
  have hrename : rename planning.module.source.id state?.isSome plan r = .replacing t.span name := by
    rw [rename, hname, hspan]
  rw [hrename]
  refine ⟨⟨body, hbody, t, ht, name, hwritable, by rwa [← hspan], rfl⟩, ?_⟩
  rw [hselection] at hline
  exact hline

/-- Another module, read again, declares what it declared. -/
theorem exists_read_other (hfound : outlines 0 sources = .ok found)
    (ht : Text.ClosedBy o.source.text.lineEnding o.source.text)
    (hproperty : ∀ plan ∈ planning.plans, isWritable plan.property = true)
    (huses : ∀ plan ∈ planning.plans, ∀ r ∈ (ofOutlines found).index.referencesTo plan.field.id,
      IsRenamed (.ofOutlines found) planning.module.source.id state?.isSome plan r →
        ¬ r.module.Same planning.module.source.id → ∀ user ∈ ((ofOutlines found).moduleOf r.module).toOption,
          Replaceable user.source.text r.selection.span plan.property)
    (hother : ¬ o.source.id.Same planning.module.source.id) (base' : DeclarationId) :
    ∃ o', read base'
        { o.source with text := (outcome.changes.get? o.source.id).getD o.source.text } = .ok o' ∧
      o'.profiles.Perm o.profiles := by
  obtain ⟨own, words, hedits, hown⟩ := hcarries.exists_editsOf (same_of_get?_modules hnames)
    (c := ⟨o.source, o.items⟩) (get?_modules_of_mem hnames ho) ht
  rw [if_neg hother] at hown
  cases hown
  have hread := read_of_mem hfound ho
  have hwords : ∀ plan ∈ planning.plans, ∀ r ∈ (ofOutlines found).index.referencesTo plan.field.id,
      IsRenamed (.ofOutlines found) planning.module.source.id state?.isSome plan r →
        r.module.Same o.source.id →
          ∃ name, newName planning.module.source.id plan state?.isSome r = (r.selection.span, name) ∧
            isWritable name = true ∧ Replaceable o.source.text r.selection.span name ∧ True := by
    intro plan hplan r hr hrenamed hsame
    have hmodule : ¬ r.module.Same planning.module.source.id := fun h => hother (hsame.symm.trans h)
    refine ⟨plan.property, by rw [newName, if_neg hmodule], hproperty plan hplan, ?_, trivial⟩
    exact huses plan hplan r hr hrenamed hmodule ⟨o.source, o.items⟩
      (by rw [moduleOf_of_same hnames ho hsame]; rfl)
  obtain ⟨parts, hmade, hparts, hranged, hchanges, hranges⟩ := exists_renameParts hread ht
    (fun r hr => (renamesWord_of_mem hnames hcarries ho (P := fun _ => True) hwords r hr).1) hedits.rendered
  have hrewrites : Rewrites o.source.text parts none [] := by
    refine ⟨hmade.makes, hmade.apart.imp .inl, fun c hc => (hchanges c hc).1, ?_, ?_, .inl ⟨rfl, rfl⟩⟩
    · rw [hparts]
      exact hranged
    · intro front rest _ _ part hpart
      obtain ⟨r, -, hrange⟩ := hranges part hpart
      rw [hrange]
      exact Nat.lt_or_ge _ _
  obtain ⟨b, hkeeps⟩ := hedits.keeps
  obtain ⟨o', ho', hprofiles⟩ := hrewrites.exists_read hread ht hedits.reaches hkeeps
    (Edit.filter_isNone_eq_nil hranged) (by rw [hparts]; exact fun _ _ => Iff.rfl) base'
  refine ⟨o', by rw [hedits.text]; exact ho', ?_⟩
  rw [flatMap_eq_nil_iff.mpr fun c hc => (hchanges c hc).2.1,
    flatMap_eq_nil_iff.mpr fun c hc => (hchanges c hc).2.2, append_nil, append_nil,
    append_nil] at hprofiles
  exact hprofiles

end

/-- Where the module of the fields can be read again with its new text, and the others declare what they
declared, all of them can be read together. -/
theorem exists_read_update {state? : Option RecordState} (outcome : Outcome) {R : Outline → Outline → Prop}
    (hfound : outlines 0 (found.map source) = .ok found)
    (hnames : (found.map source).Pairwise fun a b => ¬ a.id.Same b.id)
    (planning : Planning (.ofOutlines found) requests state?)
    (h : ∀ o ∈ found, ∀ base, ∃ o', read base
        { o.source with text := (outcome.changes.get? o.source.id).getD o.source.text } = .ok o' ∧
      if o.source.id.Same planning.module.source.id then R o o' else o'.profiles.Perm o.profiles) :
    ∃ found', outlines 0 (Plan.update outcome.changes (found.map source)) = .ok found' ∧
      (∃ o, ∃ o' ∈ found', R o o' ∧
        (ofOutlines found).index.moduleMembers planning.module.source.id =
          o.declarations.filter (·.parent? = some o.base) ∧
        (ofOutlines found').index.moduleMembers planning.module.source.id =
          o'.declarations.filter (·.parent? = some o'.base)) ∧
      ∀ s ∈ found.map source, ¬ s.id.Same planning.module.source.id →
        (((ofOutlines found').index.moduleMembers s.id).map profile).Perm
          (((ofOutlines found).index.moduleMembers s.id).map profile) := by
  obtain ⟨found', hfound', hnames', hall⟩ := exists_outlines_update outcome.changes hnames h
  refine ⟨found', hfound', ?_, ?_⟩
  · obtain ⟨o, ho, hmodule, -⟩ := (get?_modules_ofOutlines hnames _ _).mp planning.get?_module
    have hown : o.source.id.Same planning.module.source.id := by rw [hmodule]; exact .refl _
    obtain ⟨o', ho', hid, hrelated⟩ := exists_of_forall₂ hall.flip ho
    rw [if_pos hown] at hrelated
    exact ⟨o, o', ho', hrelated, moduleMembers_eq hfound hnames ho hown,
      moduleMembers_eq hfound' hnames' ho' (by rw [hid]; exact hown)⟩
  · intro s hs hother
    obtain ⟨o, ho, rfl⟩ := List.mem_map.mp hs
    obtain ⟨o', ho', hid, hperm⟩ := exists_of_forall₂ hall.flip ho
    rw [if_neg hother] at hperm
    rw [map_profile_moduleMembers hfound' hnames' ho' (by rw [hid]; exact .refl _),
      map_profile_moduleMembers hfound hnames ho (.refl _)]
    exact hperm

/-- The module of the fields, read again, declares private fields and accessors instead of them. -/
theorem exists_read_own {planning : Planning (.ofOutlines found) requests none}
    {renames : ModuleMap (List Refill)} {outcome : Outcome}
    (hnames : (found.map source).Pairwise fun a b => ¬ a.id.Same b.id)
    (hcarries : planning.Carries indent? renames outcome)
    (hclear : Clear (.ofOutlines found) planning.module planning.plans) (ho : o ∈ found)
    (hfound : outlines 0 sources = .ok found)
    (ht : Text.ClosedBy o.source.text.lineEnding o.source.text)
    (hsame : o.source.id.Same planning.module.source.id) (base' : DeclarationId) :
    ∃ o', read base'
        { o.source with text := (outcome.changes.get? o.source.id).getD o.source.text } = .ok o' ∧
      o'.profiles.Perm (((o.declarations.filter (·.parent? = some o.base)).filter
          (!isPlanned planning.plans ·)).map profile ++
        (planning.plans.map backingProfile ++ accessorProfiles planning.plans)) := by
  obtain ⟨own, words, hedits, hown⟩ := hcarries.exists_editsOf (same_of_get?_modules hnames)
    (c := ⟨o.source, o.items⟩) (get?_modules_of_mem hnames ho) ht
  rw [if_pos hsame] at hown
  obtain ⟨hmodule, hown⟩ := hown
  have hfirst : o.source.id.Same planning.first.module :=
    hsame.trans (same_of_get?_modules hnames _ _ planning.get?_module)
  have hwords := renamesWord_of_mem hnames hcarries ho (P := fun line =>
      ∀ s ∈ touched planning.module planning.plans,
        line < s.extent.lineStart ∨ s.extent.lineEnd < line) fun plan hplan r hr hrenamed hmodule => by
    obtain ⟨hreplaceable, hlines⟩ := hclear.uses plan hplan r hr hrenamed
    refine ⟨_, by rw [newName, if_pos (hmodule.trans hsame)]; rfl, (hclear.named plan hplan).backing, ?_,
      hlines (hmodule.trans hsame)⟩
    have huser := hreplaceable ⟨o.source, o.items⟩ (by rw [moduleOf_of_same hnames ho hmodule]; rfl)
    rwa [newName, if_pos (hmodule.trans hsame)] at huser
  rw [← hmodule] at hclear hown hwords
  have hread := read_of_mem hfound ho
  obtain ⟨statements, texts, hstatements, rfl⟩ := moduleEdits_none hown
  cases found_eq_touched hread rfl planning.apart.1 hstatements
  have hmembers := field_mem_moduleMembers hfound hnames planning ho hfirst
  obtain ⟨parts, hrewrites, hparts, hremoved, hadded⟩ := exists_rewrites hread rfl ht
    planning.plans_ne_nil (fun plan hplan => mem_map_of_mem (hmembers plan hplan)) hclear.place
    hclear.named hclear.splittable hclear.apart
    hwords hedits.rendered
  have hranged := hrewrites.ranged
  rw [hparts] at hranged
  obtain ⟨b, hkeeps⟩ := hedits.keeps
  obtain ⟨hinserts, hranges⟩ := edits_insert
    (range?_accessorsEdit ⟨o.source, o.items⟩ planning.plans) hranged
  obtain ⟨o', ho', hprofiles⟩ := hrewrites.exists_read hread ht hedits.reaches hkeeps hinserts
    (by rw [hparts]; exact hranges) base'
  refine ⟨o', by rw [hedits.text]; exact ho', ?_⟩
  -- What the statements give up are the planned fields.
  have hgiven := plansIn_touched_perm hread rfl planning.apart.1 hstatements
  rw [hremoved, hadded] at hprofiles
  refine profiles_perm hfound hnames planning ho hfirst
    ((((hgiven.map _).symm.append_left _).trans hprofiles).trans ?_)
  exact ((hgiven.map _).append_right _).append_left _

end Encapsulate

open Encapsulate in
/-- What an encapsulation writes, where it is clear, can be read. The module then declares at its level
what it declared but for the encapsulated fields, and for each of them a private field and its
accessors. The other modules declare what they declared. -/
theorem Project.encapsulate_reads_back {sources : List Source} {p : Project}
    {requests : List FieldRequest} {indent? : Option Nat} {outcome : Outcome} {m : ModuleContent}
    {plans : List PropertyPlan} (hread : Project.read sources = .ok p)
    (hnames : sources.Pairwise fun a b => ¬ a.id.Same b.id)
    (hbreaks : ∀ s ∈ sources, s.text.Unmixed)
    (hrun : p.encapsulate requests none indent? = .ok outcome)
    (hplanned : planned? p requests none = some (m, plans)) (hclear : Clear p m plans) :
    ∃ p', Project.read (Plan.update outcome.changes sources) = .ok p' ∧
      ((p'.index.moduleMembers m.source.id).map Declaration.profile).Perm
        (((p.index.moduleMembers m.source.id).filter (!isPlanned plans ·)).map Declaration.profile ++
          (plans.map backingProfile ++ accessorProfiles plans)) ∧
      ∀ s ∈ sources, ¬ s.id.Same m.source.id →
        ((p'.index.moduleMembers s.id).map Declaration.profile).Perm
          ((p.index.moduleMembers s.id).map Declaration.profile) := by
  obtain ⟨found, hfound, rfl⟩ := exists_outlines_of_read hread
  obtain ⟨rfl, -, -⟩ := outlines_readFrom hfound
  rcases exists_carries hrun with ⟨rfl, -⟩ | ⟨planning, renames, hcarries⟩
  · cases hplanned
  · cases planning.planned?_eq.symm.trans hplanned
    have hclosed {o : Outline} (ho : o ∈ found) : Text.ClosedBy o.source.text.lineEnding o.source.text :=
      (Text.unmixed_iff _).mp (hbreaks o.source (List.mem_map_of_mem ho))
    obtain ⟨found', hfound', ⟨o, o', -, hperm, hold, hnew⟩, hothers⟩ :=
      exists_read_update outcome (R := fun o o' => o'.profiles.Perm
        (((o.declarations.filter (·.parent? = some o.base)).filter
          (!isPlanned planning.plans ·)).map Declaration.profile ++
            (planning.plans.map backingProfile ++ accessorProfiles planning.plans))) hfound hnames
        planning fun o ho base => by
      by_cases hsame : o.source.id.Same planning.module.source.id
      · simp only [if_pos hsame]
        exact exists_read_own hnames hcarries hclear ho hfound (hclosed ho) hsame base
      · simp only [if_neg hsame]
        refine exists_read_other hnames hcarries ho hfound (hclosed ho)
          (fun plan hplan => (hclear.named plan hplan).writable.property) ?_ hsame base
        intro plan hplan r hr hrenamed hmodule user huser
        have hreplaceable := (hclear.uses plan hplan r hr hrenamed).1 user huser
        rwa [newName, if_neg hmodule] at hreplaceable
    refine ⟨.ofOutlines found', by rw [read, hfound']; rfl, ?_, hothers⟩
    rw [hnew, hold, ← profiles_eq]
    exact hperm

open Encapsulate in
/-- Two of three variables of a continued statement are encapsulated, behind another statement on their
line, and one of them is used in another module. -/
theorem encapsulate_reads_back_continued :
    let a : Source := ⟨⟨"P", "A"⟩, .standard, ("Option Explicit: Public total As Long, _\n" ++
      "    items(1 To 3) As String, owner ' the rest\n\n" ++
      "Public Sub Own()\n    total = 1\nEnd Sub\n").toList⟩
    let b : Source := ⟨⟨"P", "B"⟩, .standard, "Public Sub Other()\n    total = 2\nEnd Sub\n".toList⟩
    let requests : List FieldRequest := [⟨1, false, none⟩, ⟨2, false, some "Entries"⟩]
    let declared : List (Text × DeclarationKind × Access) := [("owner", .variable, .public),
      ("Own", .procedure, .public), ("total1", .variable, .private), ("items", .variable, .private),
      ("Total", .propertyGet, .public), ("Total", .propertyLet, .public),
      ("Entries", .propertyGet, .public)]
    ∃ p outcome p', Project.read [a, b] = .ok p ∧ p.encapsulate requests none none = .ok outcome ∧
      Project.read (Plan.update outcome.changes [a, b]) = .ok p' ∧
      ((p'.index.moduleMembers a.id).map fun d => (d.name, d.kind, d.access)).Perm declared := by
  intro a b requests declared
  have hrun : ((Project.read [a, b]).bind fun p =>
      (p.encapsulate requests none none).map fun _ =>
        (planned? p requests none).map fun found => decide (found.1.source = a ∧
          Clear p found.1 found.2 ∧
          (((p.index.moduleMembers a.id).filter (!isPlanned found.2 ·)).map Declaration.profile ++
            (found.2.map backingProfile ++ accessorProfiles found.2)).map
              (fun d => (d.name, d.kind, d.access)) = declared)).toOption = some (some true) := by
    decide +kernel
  obtain ⟨p, outcome, hread, hok, hfound⟩ := exists_of_run hrun
  obtain ⟨⟨m, plans⟩, hplanned, hvalues⟩ := Option.map_eq_some_iff.mp hfound
  obtain ⟨hsource, hclear, hlist⟩ := of_decide_eq_true hvalues
  obtain ⟨p', hread', hmembers, -⟩ := Project.encapsulate_reads_back hread (by decide) (by decide +kernel)
    hok hplanned hclear
  refine ⟨p, outcome, p', hread, hok, hread', ?_⟩
  have hshown := hmembers.map fun d : Profile => (d.name, d.kind, d.access)
  rw [hsource, hlist, List.map_map] at hshown
  exact hshown

open Encapsulate in
/-- Where a variable with `WithEvents` comes to stand first, the variables behind it get events too. -/
theorem reads_back_fails_withEvents :
    let source : Source := ⟨⟨"P", "Class1"⟩, .classModule,
      "Public a As Long, WithEvents b As Worksheet, c As Range\n".toList⟩
    let requests : List FieldRequest := [⟨1, false, none⟩]
    ∃ p outcome p', Project.read [source] = .ok p ∧ p.encapsulate requests none none = .ok outcome ∧
      Project.read (Plan.update outcome.changes [source]) = .ok p' ∧
      ∃ d ∈ p.index.moduleMembers source.id, d.id ≠ 1 ∧ d.isWithEvents = false ∧
        ∀ d' ∈ p'.index.moduleMembers source.id, d'.name = d.name → d'.isWithEvents = true := by
  intro source requests
  have hrun : ((Project.read [source]).bind fun p =>
      (p.encapsulate requests none none).map fun _ =>
        (planned? p requests none).bind fun found =>
          (moduleEdits p found.1 found.2 none none).toOption.bind fun own =>
            let text := (ModuleLines.ofText source.text).joined
              ((ModuleLines.ofText source.text).edited own)
            (Project.read [{ source with text }]).toOption.map fun p' =>
              decide (usesOf p found.2 = [] ∧ ∃ d ∈ p.index.moduleMembers source.id,
                d.id ≠ 1 ∧ d.isWithEvents = false ∧ ∀ d' ∈ p'.index.moduleMembers source.id,
                  d'.name = d.name → d'.isWithEvents = true)).toOption = some (some true) := by
    decide +kernel
  obtain ⟨p, outcome, hread, hok, hfound⟩ := exists_of_run hrun
  obtain ⟨⟨m, plans⟩, hplanned, hfound⟩ := Option.bind_eq_some_iff.mp hfound
  obtain ⟨own, hown, hfound⟩ := Option.bind_eq_some_iff.mp hfound
  obtain ⟨p', hread', hfound⟩ := Option.map_eq_some_iff.mp hfound
  obtain ⟨huses, hlost⟩ := of_decide_eq_true hfound
  refine ⟨p, outcome, p', hread, hok, ?_, hlost⟩
  rw [update_of_unused hread (by decide +kernel) hok hplanned huses (eq_ok_of_mem_toOption hown)]
  exact eq_ok_of_mem_toOption hread'

end VbaRefactor
