import VbaRefactor.Proofs.Syntax.Locating
import VbaRefactor.Proofs.Syntax.ModuleLevel
import VbaRefactor.Proofs.Syntax.Traces

/-!
# The members of a record

What stands in a record can be read off its own statements, from the one that opens it to the last one
before its end. Nothing else in the module adds to it.
-/

namespace VbaRefactor

open List Statement

variable {text whole : Text} {pos : Nat} {s : Statement} {rest before after : List Statement}
  {profile : Profile} {members : List Profile}

namespace Statement

/-- What a statement declares in a record. -/
def recordMember? (text : Text) (s : Statement) : Option Profile :=
  (s.namedType? text).map fun found =>
    { name := found.name.name, kind := .recordMember, access := .public, type? := found.type?
      isWithEvents := false, isArray := found.bounds?.isSome }

/-- The record that the first of some statements opens and the others leave open, with its members. -/
def openRecord? (text : Text) : List Statement → Option (Profile × List Profile)
  | [] => none
  | s :: rest =>
    match ModuleStatement.ofStatement s with
    | .record access nameAt =>
      if rest.any (Outline.isEnd · "type") then none
      else (s.blockProfile? .record access nameAt).map (·, rest.filterMap (recordMember? text))
    | _ => none

theorem openRecord?_eq_some (h : openRecord? text rest = some (profile, members)) :
    ∃ s more access nameAt, rest = s :: more ∧ ModuleStatement.ofStatement s = .record access nameAt ∧
      (∀ s ∈ more, Outline.isEnd s "type" = false) ∧
      s.blockProfile? .record access nameAt = some profile ∧
      members = more.filterMap (recordMember? text) := by
  cases rest with
  | nil => cases h
  | cons s more =>
    rw [openRecord?] at h
    split at h
    · rename_i access nameAt hkind
      split at h
      · cases h
      · rename_i hends
        obtain ⟨_, hprofile, heq⟩ := Option.map_eq_some_iff.mp h
        cases heq
        exact ⟨s, more, access, nameAt, rfl, hkind, by simpa using hends, hprofile, rfl⟩
    · cases h

theorem openRecord?_cons {access : Access} {nameAt : Nat}
    (hkind : ModuleStatement.ofStatement s = .record access nameAt)
    (hends : ∀ s ∈ rest, Outline.isEnd s "type" = false)
    (hprofile : s.blockProfile? .record access nameAt = some profile) :
    openRecord? text (s :: rest) = some (profile, rest.filterMap (recordMember? text)) := by
  rw [openRecord?, hkind, any_eq_false.mpr fun s hs => by rw [hends s hs]; exact Bool.false_ne_true]
  simp [hprofile]

theorem recordMember?_shift (hat : whole.HasAt pos text) (hs : s.HeldBy text) :
    recordMember? whole (s.shift pos) = recordMember? text s := by
  rw [recordMember?, namedType?_shift hat hs, Option.map_map, recordMember?]
  congr 1
  funext found
  simp [NamedType.shift]

theorem openRecord?_shift (hat : whole.HasAt pos text) (hs : ∀ s ∈ rest, s.HeldBy text) :
    openRecord? whole (rest.map (.shift pos)) = openRecord? text rest := by
  cases rest with
  | nil => rfl
  | cons s rest =>
    have hmembers : (rest.map (.shift pos)).filterMap (recordMember? whole) =
        rest.filterMap (recordMember? text) := by
      rw [filterMap_map]
      exact filterMap_congr fun s h => recordMember?_shift hat ((forall_mem_cons.mp hs).2 s h)
    rw [map_cons, openRecord?, openRecord?, ofStatement_shift, hmembers, any_map]
    simp only [Function.comp_def, isEnd_shift, blockProfile?_shift]

end Statement

namespace Outline

variable {o o' : Outline} {block block' : Construct} {type : DeclarationId}

/-- What is declared in a record, in order. -/
def membersOf (o : Outline) (type : DeclarationId) : List Profile :=
  (o.declarations.filter (·.parent? = some type)).map Declaration.profile

theorem membersOf_addDeclaration (o : Outline) (e : Entry) :
    (o.addDeclaration e).membersOf type = o.membersOf type ++ if e.parent = type then [e.profile] else [] := by
  rw [membersOf, addDeclaration, filter_append, map_append]
  by_cases he : e.parent = type
  · simp [he, membersOf]
    rfl
  · simp [he, membersOf]

/-- The record keeps its members while declarations are added to others. -/
structure Keeps (type : DeclarationId) (members : List Profile) (o : Outline) (block : Construct) : Prop where
  apart : block.Apart type
  base : o.base ≠ type
  known : type < o.nextId
  same : o.membersOf type = members

theorem Keeps.declare (h : Keeps type members o block) {entries : List Entry}
    (hne : ∀ e ∈ entries, e.parent ≠ type) : Keeps type members (o.declare entries) block := by
  induction entries generalizing o with
  | nil => exact h
  | cons e entries ih =>
    obtain ⟨he, hentries⟩ := forall_mem_cons.mp hne
    refine ih (o := o.addDeclaration e) ⟨h.apart, h.base, ?_, ?_⟩ hentries
    · rw [nextId_addDeclaration]
      exact Nat.lt_succ_of_lt h.known
    · rw [membersOf_addDeclaration, if_neg he, append_nil, h.same]

theorem Keeps.endMember (h : Keeps type members o block) (opened : UnclosedMember) (s : Statement) :
    Keeps type members (o.endMember opened s) .code := by
  refine ⟨trivial, h.base, by rw [nextId, Outline.endMember, length_map]; exact h.known, ?_⟩
  rw [← h.same, membersOf, membersOf, Outline.endMember, filter_map, map_map]
  have hparent : ((fun d : Declaration => decide (d.parent? = some type)) ∘ fun d =>
      if d.id = opened.declaration then
        { d with extent := o.source.text.extent ⟨opened.signature.span.start, endOf s⟩ }
      else d) = fun d => decide (d.parent? = some type) := by
    funext d
    simp only [Function.comp_apply]
    split <;> rfl
  rw [hparent]
  refine map_congr_left fun d _ => ?_
  simp only [Function.comp_apply]
  split <;> rfl

theorem Keeps.step (h : Keeps type members o block) (hstep : o.step block s = .ok (o', block')) :
    Keeps type members o' block' := by
  have hplain {id : DeclarationId} {entries : List Entry} (hne : id ≠ type) (hall : Plain id entries) :
      ∀ e ∈ entries, e.parent ≠ type :=
    fun e he hparent => hne ((hall e he).1.symm.trans hparent)
  have hown (e : Entry) (he : e.parent = o.base) : Keeps type members (o.addDeclaration e) block :=
    h.declare ((forall_mem_singleton (a := e)).mpr (he ▸ h.base))
  have hnew := Nat.ne_of_gt h.known
  cases effect_of_step hstep with
  | names _ hclosed hall =>
    have hkeeps := h.declare (hplain h.base hall)
    refine ⟨?_, hkeeps.base, hkeeps.known, hkeeps.same⟩
    cases block' <;> trivial
  | implements | closeRecord => exact ⟨trivial, h.base, h.known, h.same⟩
  | fields hall =>
    have hkeeps := h.declare (hplain h.base hall)
    exact ⟨trivial, hkeeps.base, hkeeps.known, hkeeps.same⟩
  | bodyless => exact ⟨trivial, h.base, (hown _ rfl).known, (hown _ rfl).same⟩
  | openMember | openRecord => exact ⟨hnew, h.base, (hown _ rfl).known, (hown _ rfl).same⟩
  | keep hall =>
    have hkeeps := h.declare (hplain h.apart hall)
    exact ⟨h.apart, hkeeps.base, hkeeps.known, hkeeps.same⟩
  | closeMember => exact h.endMember _ s
  | line hall hsame =>
    have hkeeps := h.declare fun e he hparent => h.apart ((hall e he).1.symm.trans hparent)
    exact ⟨by rw [Construct.Apart, hsame]; exact h.apart, hkeeps.base, hkeeps.known, hkeeps.same⟩

theorem steps_append (h : o.steps block (before ++ after) = .ok (o', block')) :
    ∃ o₁ block₁, o.steps block before = .ok (o₁, block₁) ∧ o₁.steps block₁ after = .ok (o', block') := by
  induction before generalizing o block with
  | nil => exact ⟨o, block, rfl, h⟩
  | cons s before ih =>
    rw [cons_append, steps] at h
    rw [steps]
    split at h
    · cases h
    · exact ih h

/-- The statements of a record that is open add their members to it. -/
theorem steps_record {opened : UnclosedRecord} (hends : ∀ s ∈ rest, isEnd s "type" = false)
    (h : o.steps (.record opened) rest = .ok (o', block')) :
    (∃ opened', block' = .record opened' ∧ opened'.declaration = opened.declaration) ∧
      o'.membersOf opened.declaration = o.membersOf opened.declaration ++
        rest.filterMap (recordMember? o.source.text) := by
  induction rest generalizing o opened with
  | nil =>
    cases h
    exact ⟨⟨opened, rfl, rfl⟩, (append_nil _).symm⟩
  | cons s rest ih =>
    obtain ⟨hend, hends⟩ := forall_mem_cons.mp hends
    rw [steps, step, recordStatement, if_neg (by rw [hend]; exact Bool.false_ne_true)] at h
    rw [filterMap_cons, recordMember?]
    cases hfound : s.namedType? o.source.text with
    | none =>
      simp only [hfound] at h
      exact ih hends h
    | some found =>
      obtain ⟨span, hspan⟩ := exists_cover? (s := s) (by rintro rfl; cases hfound)
      simp only [hfound, hspan] at h
      obtain ⟨⟨opened', hblock, hsame⟩, hmembers⟩ := ih hends h
      refine ⟨⟨opened', hblock, hsame⟩, hmembers.trans ?_⟩
      rw [membersOf_addDeclaration, if_pos rfl, append_assoc]
      rfl

/-- A record that is opened and closed among the statements of a source has the members that stand in it. -/
theorem exists_record {source : Source} {base : DeclarationId} {last : Statement}
    (hread : read base source = .ok o)
    (hstatements : ofTokens (tokenize source.text) = before ++ (rest ++ last :: after))
    (hbefore : (declareAll source.text .code before).map Prod.snd = some .code)
    (hrecord : openRecord? source.text rest = some (profile, members))
    (hlast : isEnd last "type" = true) :
    ∃ id span, (id, span, profile) ∈ o.members ∧ o.membersOf id = members := by
  obtain ⟨s, more, access, nameAt, rfl, hkind, hends, hprofile, rfl⟩ := openRecord?_eq_some hrecord
  have hreading := Reading.start (ofTokens (tokenize source.text)) source base
  obtain ⟨block, -, hsteps⟩ := steps_of_read hread
  rw [hstatements] at hsteps hreading
  obtain ⟨o₁, block₁, hfirst, hsteps⟩ := steps_append hsteps
  have hlook := hreading.outlook_steps fun s (hs : s ∈ before) => mem_append_left _ hs
  have hreading := hreading.steps (fun s hs => mem_append_left _ hs) hfirst
  obtain ⟨⟨found, _⟩, hfound, rfl⟩ := Option.map_eq_some_iff.mp hbefore
  rw [hfirst, Construct.level, hfound] at hlook
  obtain rfl : block₁ = .code := by
    have hlevel : block₁.level = .code := congrArg Prod.snd (Option.some.inj hlook)
    cases block₁ <;> first | rfl | cases hlevel
  have hsource := hreading.readFrom.ofSource
  have hbase := hreading.readFrom.ofBase
  -- The first statement opens the record, which has no members yet.
  obtain ⟨name, hname, rfl⟩ := Option.map_eq_some_iff.mp hprofile
  obtain ⟨o₂, _, hinside, hsteps⟩ := steps_append hsteps
  have hreading₂ := hreading.steps (fun s hs => mem_append_right _ (mem_append_left _ hs)) hinside
  rw [steps, step, codeStatement, hkind] at hinside
  simp only [hname] at hinside
  obtain ⟨⟨opened, rfl, hid⟩, hmembers⟩ := steps_record hends hinside
  have hapart := hreading₂.apart
  have hknown := hreading₂.within.2
  rw [hid] at hknown
  have hne : o₁.base ≠ o₁.nextId := by
    rw [hbase]
    rintro rfl
    exact hapart hid
  have hnone : (o₁.addBlock .record access s name).membersOf o₁.nextId = [] := by
    rw [addBlock, membersOf_addDeclaration, if_neg hne, append_nil, membersOf, map_eq_nil_iff,
      filter_eq_nil_iff]
    intro d hd hparent
    exact Nat.lt_irrefl _ (hreading.closed.parents d hd _ (by simpa using hparent)).2
  rw [hnone, nil_append] at hmembers
  have hopened : (o₁.nextId, name.span, (⟨name.name, .record, access, none, false, false⟩ : Profile)) ∈
      (o₁.addBlock .record access s name).members := by
    rw [addBlock, members_addDeclaration, if_pos rfl]
    exact mem_append_right _ mem_cons_self
  refine ⟨o₁.nextId, name.span, ?_, ?_⟩
  · exact (members_prefix_steps hsteps).subset ((members_prefix_steps hinside).subset hopened)
  · -- The next statement closes it, and nothing behind adds to it.
    rw [steps, step, recordStatement, if_pos hlast] at hsteps
    have hkeeps : Keeps o₁.nextId (more.filterMap (recordMember? source.text)) o₂ .code := by
      refine ⟨trivial, ?_, hknown, hmembers.trans (by rw [← hsource]; rfl)⟩
      rw [hreading₂.readFrom.ofBase, ← hbase]
      exact hne
    refine (keeps_of_steps (P := fun _ o block => Keeps o₁.nextId _ o block)
      (fun h hstep => h.step hstep) ?_ hsteps).same
    exact ⟨trivial, hkeeps.base, hkeeps.known, hkeeps.same⟩

end Outline

end VbaRefactor
