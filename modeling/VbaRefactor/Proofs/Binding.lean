import Mathlib.Data.List.Pairwise
import VbaRefactor.Proofs.Project
import VbaRefactor.Proofs.Syntax.Qualifiers

/-!
# What references are bound to

A name without a qualifier is looked up among the locals of its member first. So where it is bound to
a variable of a module, no local of the member has that name.
-/

namespace VbaRefactor

open List Statement

variable {d : Declaration} {member : DeclarationId} {index : Index} {r : Reference}

/-- A member has a local or a parameter with this name. -/
def Index.IsLocal (index : Index) (member : DeclarationId) (name : Text) : Prop :=
  (∃ d ∈ index.declarations, d.parent? = some member ∧ d.name.SameName name) ∨
    ∃ owner, index.get? member = some owner ∧ ∃ q ∈ owner.parameters, q.name.SameName name

instance (index : Index) (member : DeclarationId) (name : Text) :
    Decidable (index.IsLocal member name) :=
  match howner : index.get? member with
  | none => decidable_of_iff (∃ d ∈ index.declarations, d.parent? = some member ∧ d.name.SameName name)
      (by simp [Index.IsLocal, howner])
  | some owner => decidable_of_iff
      ((∃ d ∈ index.declarations, d.parent? = some member ∧ d.name.SameName name) ∨
        ∃ q ∈ owner.parameters, q.name.SameName name) (by simp [Index.IsLocal, howner])

theorem Index.IsLocal.of_sameName {a b : Text} (h : index.IsLocal member a) (hab : a.SameName b) :
    index.IsLocal member b := by
  rcases h with ⟨d, hd, hparent, hname⟩ | ⟨owner, howner, q, hq, hname⟩
  · exact .inl ⟨d, hd, hparent, hname.trans hab⟩
  · exact .inr ⟨owner, howner, q, hq, hname.trans hab⟩

namespace Scope

variable {scope : Scope} {m : ModuleName} {name : Text}

theorem isSome_typeOfLocal?_iff (h : scope.declarations = index.declarations) :
    (scope.typeOfLocal? member name).isSome = true ↔ index.IsLocal member name := by
  rw [Index.IsLocal, Index.get?, ← h, typeOfLocal?]
  split
  · rename_i d rest hinside
    have hd : d ∈ scope.inside member name := by simp [hinside]
    simp only [inside, mem_filter, Bool.and_eq_true, decide_eq_true_eq] at hd
    exact iff_of_true rfl (.inl ⟨d, hd.1, hd.2⟩)
  · rename_i hinside
    have hnone : ¬ ∃ d ∈ scope.declarations, d.parent? = some member ∧ d.name.SameName name := by
      rintro ⟨d, hd, hlocal⟩
      have hmem : d ∈ scope.inside member name := mem_filter.mpr ⟨hd, by simpa using hlocal⟩
      rw [hinside] at hmem
      cases hmem
    split
    · rename_i owner howner
      simp [hnone, howner]
    · rename_i howner
      simp [hnone, howner]

theorem mem_of_mem_declaredIn (h : d ∈ scope.declaredIn m name) :
    d ∈ scope.declarations ∧ d.name.SameName name := by
  rw [declaredIn] at h
  split at h
  · simp only [inside, mem_filter, Bool.and_eq_true, decide_eq_true_eq] at h
    exact ⟨h.1, h.2.2⟩
  · cases h

/-- What the standard modules show under a name. -/
def shown (scope : Scope) (name : Text) : List Declaration :=
  scope.kinds.flatMap fun (m, kind) =>
    if kind = .standard then (scope.declaredIn m name).filter isExported else []

theorem mem_shown_iff : d ∈ scope.shown name ↔
    ∃ m, (m, .standard) ∈ scope.kinds ∧ d ∈ scope.declaredIn m name ∧ isExported d = true := by
  rw [shown, mem_flatMap]
  constructor
  · rintro ⟨⟨m, kind⟩, hkind, hd⟩
    dsimp only at hd
    split at hd
    · rename_i hstandard
      exact ⟨m, hstandard ▸ hkind, mem_filter.mp hd⟩
    · cases hd
  · rintro ⟨m, hkind, hd⟩
    exact ⟨(m, .standard), hkind, mem_filter.mpr hd⟩

theorem exported_of_nil (h : scope.shown name = []) : scope.exported name = [] := by
  unfold exported
  rw [← shown, h]

theorem exported_of_cons {rest : List Declaration} (h : scope.shown name = d :: rest) :
    scope.exported name =
      if rest.all fun e => decide (e.module.Same d.module) then d :: rest else [] := by
  unfold exported
  rw [← shown, h]

/-- All declarations come from one module. -/
def OneModule (found : List Declaration) : Prop := ∀ d ∈ found, ∀ e ∈ found, e.module.Same d.module

theorem exported_of_oneModule (h : OneModule (scope.shown name)) :
    scope.exported name = scope.shown name := by
  cases hshown : scope.shown name with
  | nil => exact exported_of_nil hshown
  | cons d rest =>
    rw [hshown] at h
    rw [exported_of_cons hshown, if_pos]
    exact all_eq_true.mpr fun e he => decide_eq_true (h d mem_cons_self e (mem_cons_of_mem _ he))

theorem exported_of_not_oneModule (h : ¬ OneModule (scope.shown name)) : scope.exported name = [] := by
  cases hshown : scope.shown name with
  | nil => exact exported_of_nil hshown
  | cons d rest =>
    rw [hshown] at h
    rw [exported_of_cons hshown, if_neg]
    intro hall
    have hsame : ∀ e ∈ d :: rest, e.module.Same d.module :=
      forall_mem_cons.mpr ⟨.refl _, fun e he => of_decide_eq_true (all_eq_true.mp hall e he)⟩
    exact h fun e he e' he' => (hsame e' he').trans (hsame e he).symm

theorem flatMap_eq_of_single {α β : Type} {l : List α} {a : α} {g : α → List β} (ha : a ∈ l)
    (hl : l.Nodup) (h : ∀ b ∈ l, g b ≠ [] → b = a) : l.flatMap g = g a := by
  obtain ⟨front, back, rfl⟩ := append_of_mem ha
  obtain ⟨-, hback, hdisjoint⟩ := nodup_append.mp hl
  have hnil : ∀ b ∈ front ++ back, g b = [] := by
    intro b hb
    by_contra hsome
    rcases mem_append.mp hb with hb | hb
    · exact hdisjoint b hb a mem_cons_self (h b (mem_append_left _ hb) hsome)
    · obtain rfl := h b (mem_append_right _ (mem_cons_of_mem _ hb)) hsome
      exact (nodup_cons.mp hback).1 hb
  rw [flatMap_append, flatMap_cons,
    flatMap_eq_nil_iff.mpr fun b hb => hnil b (mem_append_left _ hb),
    flatMap_eq_nil_iff.mpr fun b hb => hnil b (mem_append_right _ hb), nil_append, append_nil]

/-- The modules can be walked in any order: what they show under a name is the same list, as long as
each of them shows declarations of its own only. -/
theorem exported_of_perm {kinds : ModuleMap ModuleKind} (hperm : kinds.Perm scope.kinds)
    (hkeys : scope.kinds.Pairwise fun a b => ¬ a.1.Same b.1)
    (howned : ∀ m, ∀ d ∈ scope.declaredIn m name, d.module.Same m) :
    exported { scope with kinds := kinds } name = scope.exported name := by
  let shows (entry : ModuleName × ModuleKind) : List Declaration :=
    if entry.2 = .standard then (scope.declaredIn entry.1 name).filter isExported else []
  have hshows {entry : ModuleName × ModuleKind} : ∀ d ∈ shows entry, d.module.Same entry.1 := by
    intro d hd
    simp only [shows] at hd
    split at hd
    · exact howned _ d (mem_of_mem_filter hd)
    · cases hd
  have hshown : (shown { scope with kinds := kinds } name).Perm (scope.shown name) :=
    hperm.flatMap_right shows
  by_cases hone : OneModule (scope.shown name)
  · have hone' : OneModule (shown { scope with kinds := kinds } name) := fun d hd e he =>
      hone d (hshown.mem_iff.mp hd) e (hshown.mem_iff.mp he)
    rw [exported_of_oneModule hone, exported_of_oneModule hone']
    rcases eq_nil_or_concat (scope.shown name) with hnil | ⟨_, d, hlast⟩
    · rw [hnil, ← perm_nil, ← hnil]
      exact hshown
    -- Only one entry shows any of the declarations.
    have hd : d ∈ scope.shown name := by simp [hlast]
    obtain ⟨entry, hentry, hdentry⟩ := mem_flatMap.mp hd
    have hsingle : ∀ other ∈ scope.kinds, shows other ≠ [] → other = entry := by
      intro other hother hsome
      obtain ⟨e, he⟩ := exists_mem_of_ne_nil _ hsome
      have hsame := hone d hd e (mem_flatMap.mpr ⟨other, hother, he⟩)
      by_contra hne
      have : Std.Symm fun a b : ModuleName × ModuleKind => ¬ a.1.Same b.1 :=
        ⟨fun _ _ h h' => h h'.symm⟩
      exact hkeys.forall hother hentry hne ((hshows e he).symm.trans (hsame.trans (hshows d hdentry)))
    have hnodup : scope.kinds.Nodup := hkeys.imp (by
      rintro a _ hne rfl
      exact hne (.refl _))
    have hfound : scope.shown name = shows entry := flatMap_eq_of_single hentry hnodup hsingle
    exact (flatMap_eq_of_single (hperm.mem_iff.mpr hentry) (hperm.nodup_iff.mpr hnodup)
      fun other hother => hsingle other (hperm.mem_iff.mp hother)).trans hfound.symm
  · have hone' : ¬ OneModule (shown { scope with kinds := kinds } name) := fun h =>
      hone fun d hd e he => h d (hshown.mem_iff.mpr hd) e (hshown.mem_iff.mpr he)
    rw [exported_of_not_oneModule hone, exported_of_not_oneModule hone']

/-- What is shown under a name comes from one module. -/
theorem mem_exported (h : d ∈ scope.exported name) :
    d ∈ scope.shown name ∧ ∀ e ∈ scope.shown name, e.module.Same d.module := by
  by_cases hone : OneModule (scope.shown name)
  · rw [exported_of_oneModule hone] at h
    exact ⟨h, hone d h⟩
  · rw [exported_of_not_oneModule hone] at h
    cases h

/-- What a name can mean is not hidden by a local, and stands in the module if that has the name. -/
theorem mem_visible (h : d ∈ scope.visible m member name) :
    (scope.typeOfLocal? member name).isSome = false ∧
      (d ∈ scope.declaredIn m name ∨ (scope.declaredIn m name = [] ∧ d ∈ scope.exported name)) := by
  unfold visible at h
  split at h
  · cases h
  · rename_i hlocal
    refine ⟨Bool.eq_false_iff.mpr hlocal, ?_⟩
    split at h
    · rename_i hnone
      exact .inr ⟨hnone, h⟩
    · exact .inl h

/-- What a name can mean has that name, and no local hides it. -/
theorem mem_of_mem_visible (h : d ∈ scope.visible m member name) :
    (scope.typeOfLocal? member name).isSome = false ∧ d ∈ scope.declarations ∧
      d.name.SameName name := by
  obtain ⟨hlocal, hhere | ⟨-, hexported⟩⟩ := mem_visible h
  · exact ⟨hlocal, mem_of_mem_declaredIn hhere⟩
  · obtain ⟨_, -, hthere, -⟩ := mem_shown_iff.mp (mem_exported hexported).1
    exact ⟨hlocal, mem_of_mem_declaredIn hthere⟩

end Scope

namespace Place

variable {p : Place} {withs : WithStack} {m : Mention}

theorem mem_of_mem_candidates (h : d ∈ p.candidates withs m) : d ∈ p.scope.declarations := by
  unfold candidates at h
  simp only at h
  split at h
  · split at h
    · exact (Scope.mem_of_mem_declaredIn (mem_of_mem_filter h)).1
    · exact (Scope.mem_of_mem_visible h).2.1
  · split at h
    · exact (Scope.mem_of_mem_declaredIn h).1
    · cases h

/-- What a mention without qualifier can mean is an event, or no local hides it. -/
theorem hidden_of_mem_candidates (h : d ∈ p.candidates withs m) (hm : m.qualifier.isNone = true) :
    d.kind = .event ∨ ((p.scope.typeOfLocal? p.member (p.tokens.nameAt m.name)).isSome = false ∧
      d.name.SameName (p.tokens.nameAt m.name)) := by
  unfold candidates at h
  simp only [hm, if_true] at h
  split at h
  · exact .inl (by simpa using (mem_filter.mp h).2)
  · obtain ⟨hlocal, -, hname⟩ := Scope.mem_of_mem_visible h
    exact .inr ⟨hlocal, hname⟩

/-- A reference that starts at its name comes from a mention without qualifier. -/
theorem isNone_of_unqualified {text : Text} (hstands : p.tokens.StandsIn text)
    (hm : p.tokens.Mentions m) (hbind : p.bind? withs m = some r)
    (hresult : p.isReturnValue m = false) (h : r.isQualified = false) :
    m.qualifier.isNone = true := by
  obtain ⟨-, hselection, ⟨hresult', -⟩ | ⟨-, -, hspan⟩⟩ := bind?_eq_some hbind
  · rw [hresult] at hresult'
    cases hresult'
  obtain ⟨i, hi, hstart, hnone⟩ := exists_qualifiedStart hm.leads
  rw [← hnone]
  rcases Nat.lt_or_eq_of_le hi with hlt | heq
  · have hbefore := hstands.spanAt_start_lt hlt hm.leads.given
    have heq : r.qualified.span = r.selection.span := by
      simpa [Reference.isQualified] using h
    rw [hspan, hselection, Text.extent, Text.extent, hstart] at heq
    have := congrArg Span.start heq
    simp only at this
    omega
  · exact heq

end Place

/-- A reference stands in a text: its name is a token there, and its qualifier starts in front of it. -/
structure Reference.StandsIn (text : Text) (r : Reference) : Prop where
  name : ∃ t ∈ tokenize text, r.selection.span = t.span
  some : r.selection.span.start < r.selection.span.stop
  le : r.qualified.span.start ≤ r.selection.span.start
  stop : r.qualified.span.stop = r.selection.span.stop
  startBound : text.IsBoundary r.qualified.span.start
  nameBound : text.IsBoundary r.selection.span.start
  stopBound : text.IsBoundary r.selection.span.stop

namespace Project

variable {sources : List Source} {p : Project}

section

variable (h : read sources = .ok p) (hr : r ∈ p.index.references)

include h hr

/-- Every reference is an act in a statement of its module that was bound there. -/
theorem exists_act_of_mem_references :
    ∃ (place : Place) (withs : WithStack) (m : Mention), place.source ∈ sources ∧
      r.module = place.source.id ∧ place.scope.declarations = p.index.declarations ∧
      place.tokens ∈ place.source.statements ∧ .mention m ∈ place.tokens.acts ∧
      place.bind? withs m = some r := by
  obtain ⟨found, hfound, rfl⟩ := exists_outlines_of_read h
  obtain ⟨rfl, hfrom, -⟩ := outlines_readFrom hfound
  obtain ⟨o, ho, hmem⟩ := mem_flatMap.mp hr
  obtain ⟨first, hread⟩ := hfrom o ho
  obtain ⟨body, hbody, withs, m, hm, hbind⟩ := Scope.exists_act_of_mem_references hmem
  exact ⟨_, withs, m, mem_map_of_mem ho, (Scope.references_supplied hmem).1, rfl,
    hread.bodies body hbody, hm, hbind⟩

/-- Every reference is a mention in a statement of its module that was bound there. -/
theorem exists_place_of_mem_references :
    ∃ (place : Place) (withs : WithStack) (m : Mention), place.source ∈ sources ∧
      r.module = place.source.id ∧ place.scope.declarations = p.index.declarations ∧
      place.tokens ∈ place.source.statements ∧ place.tokens.Mentions m ∧
      place.bind? withs m = some r := by
  obtain ⟨place, withs, m, hsource, hmodule, hscope, htokens, hm, hbind⟩ :=
    exists_act_of_mem_references h hr
  exact ⟨place, withs, m, hsource, hmodule, hscope, htokens, mentions_of_mem_acts hm, hbind⟩

/-- Every reference stands in the text of its module. -/
theorem standsIn_of_mem_references : ∃ s ∈ sources, r.module = s.id ∧ r.StandsIn s.text := by
  obtain ⟨place, withs, m, hsource, hmodule, -, htokens, hm, hbind⟩ :=
    exists_place_of_mem_references h hr
  refine ⟨place.source, hsource, hmodule, ?_⟩
  have hstands := standsIn_of_mem_ofTokens htokens
  have hleads := hm.leads
  obtain ⟨t, ht, hspan⟩ := exists_spanAt hleads.given
  have hname : ∃ t ∈ tokenize place.source.text, place.tokens.spanAt m.name = t.span :=
    ⟨t, (mem_tokenize_of_mem htokens ht).1, hspan⟩
  have hlt : (place.tokens.spanAt m.name).start < (place.tokens.spanAt m.name).stop := by
    rw [hspan]
    exact hstands.lt ht
  have hstart : place.source.text.IsBoundary (place.tokens.spanAt m.name).start := by
    rw [hspan]
    exact (hstands.isCut_start ht).isBoundary
  have hstop : place.source.text.IsBoundary (place.tokens.spanAt m.name).stop := by
    rw [hspan]
    exact (hstands.isCut_stop ht).isBoundary
  obtain ⟨-, hselection, hbound⟩ := Place.bind?_eq_some hbind
  have hselected : r.selection.span = place.tokens.spanAt m.name := by rw [hselection, Text.extent]
  rw [← hselected] at hname hlt hstart hstop
  rcases hbound with ⟨-, -, hqualified⟩ | ⟨-, -, hqualified⟩
  · exact ⟨hname, hlt, Nat.le_of_eq (by rw [hqualified]), by rw [hqualified], by rwa [hqualified], hstart, hstop⟩
  obtain ⟨i, hi, hfirst, -⟩ := Place.exists_qualifiedStart hleads
  obtain ⟨u, hu, hspanu⟩ := exists_spanAt (Nat.lt_of_le_of_lt hi hleads.given)
  have hle : place.qualifiedStart m ≤ (place.tokens.spanAt m.name).start := by
    rw [hfirst]
    rcases Nat.lt_or_eq_of_le hi with hlt | rfl
    · exact Nat.le_of_lt (hstands.spanAt_start_lt hlt hleads.given)
    · exact Nat.le_refl _
  have hbound : place.source.text.IsBoundary (place.qualifiedStart m) := by
    rw [hfirst, hspanu]
    exact (hstands.isCut_start hu).isBoundary
  rw [← hselected] at hle
  refine ⟨hname, hlt, ?_, ?_, ?_, hstart, hstop⟩
  · rw [hqualified]
    exact hle
  · rw [hqualified, hselected]
    rfl
  · rw [hqualified]
    exact hbound

/-- Where a name without qualifier is bound to a variable, no local of the member has its name. -/
theorem not_isLocal_of_unqualified (hqualified : r.isQualified = false)
    (hd : p.index.get? r.declaration = some d) (hkind : d.kind = .variable) :
    ¬ p.index.IsLocal r.member d.name := by
  obtain ⟨place, withs, m, -, -, hscope, htokens, hm, hbind⟩ := exists_place_of_mem_references h hr
  obtain ⟨hmember, -, ⟨hresult, hdeclaration, -⟩ | ⟨hresult, ⟨e, he, hdeclaration⟩, -⟩⟩ :=
    Place.bind?_eq_some hbind
  · -- The result of a function is no variable.
    exfalso
    rw [hdeclaration, Index.get?, ← hscope] at hd
    simp only [Place.isReturnValue, hd] at hresult
    split at hresult
    · rename_i howner
      cases howner
      simp [hkind] at hresult
    · cases hresult
  · have hnone := Place.isNone_of_unqualified (standsIn_of_mem_ofTokens htokens) hm hbind
      hresult hqualified
    have hmem : e ∈ p.index.declarations := hscope ▸ Place.mem_of_mem_candidates he
    have hde : d = e := by
      rw [hdeclaration, (numbered_of_read h).get?_id hmem] at hd
      exact (Option.some.inj hd).symm
    subst hde
    rcases Place.hidden_of_mem_candidates he hnone with hevent | ⟨hlocal, hname⟩
    · rw [hkind] at hevent
      cases hevent
    · intro hisLocal
      rw [hmember] at hisLocal
      rw [Bool.eq_false_iff, Ne, Scope.isSome_typeOfLocal?_iff hscope] at hlocal
      exact hlocal (hisLocal.of_sameName hname)

end

end Project

end VbaRefactor
