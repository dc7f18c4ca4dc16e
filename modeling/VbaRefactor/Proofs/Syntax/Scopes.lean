import VbaRefactor.Proofs.Syntax.Outline

/-!
# Numbers that an outline uses

An outline speaks of no other declarations than its own: what a declaration stands in and the members
of the bodies are declarations of the outline. The first one is the module, and no other is.
-/

namespace VbaRefactor

open List

namespace Outline

/-- The number is that of a declaration of the outline. -/
def Has (o : Outline) (id : DeclarationId) : Prop := o.base ≤ id ∧ id < o.nextId

/-- The outline speaks of its own declarations only, the first of which is the module. -/
structure Closed (o : Outline) : Prop where
  module : ∃ d rest, o.declarations = d :: rest ∧ d.kind = .module ∧ d.parent? = none ∧
    d.name = o.source.id.component ∧ ∀ e ∈ rest, e.kind ≠ .module
  parents : ∀ d ∈ o.declarations, ∀ parent ∈ d.parent?, o.Has parent
  members : ∀ body ∈ o.bodies, o.Has body.member

/-- What is being read is a declaration of the outline. -/
def Construct.Within (o : Outline) : Construct → Prop
  | .member opened => o.Has opened.declaration
  | .record opened => o.Has opened.declaration
  | _ => True

namespace Closed

variable {o : Outline} {entries : List Entry} {id : DeclarationId}

theorem start (base : DeclarationId) (source : Source) : Closed (.start base source) := by
  refine ⟨⟨_, [], rfl, rfl, rfl, rfl, by simp⟩, ?_, by simp [Outline.start]⟩
  intro d hd parent hparent
  cases mem_singleton.mp hd
  cases hparent

theorem has_base (h : o.Closed) : o.Has o.base := by
  obtain ⟨d, rest, hdeclarations, -⟩ := h.module
  refine ⟨Nat.le_refl _, ?_⟩
  rw [nextId, hdeclarations, length_cons]
  exact Nat.lt_add_of_pos_right (Nat.succ_pos _)

theorem has_addDeclaration (h : o.Has id) (e : Entry) : (o.addDeclaration e).Has id := by
  refine ⟨h.1, ?_⟩
  rw [nextId_addDeclaration]
  exact Nat.lt_succ_of_lt h.2

theorem has_nextId (h : o.Closed) (e : Entry) : (o.addDeclaration e).Has o.nextId := by
  refine ⟨Nat.le_of_lt h.has_base.2, ?_⟩
  rw [nextId_addDeclaration]
  exact Nat.lt_succ_self _

theorem addDeclaration (h : o.Closed) {e : Entry} (hparent : o.Has e.parent)
    (hkind : e.kind ≠ .module) : (o.addDeclaration e).Closed := by
  refine ⟨?_, ?_, fun body hbody => has_addDeclaration (h.members body hbody) e⟩
  · obtain ⟨d, rest, hdeclarations, hmodule, hnone, hname, hrest⟩ := h.module
    simp only [Outline.addDeclaration, hdeclarations, cons_append]
    refine ⟨_, _, rfl, hmodule, hnone, hname, ?_⟩
    exact forall_mem_append.mpr ⟨hrest, forall_mem_singleton.mpr hkind⟩
  · intro d hd parent hd'
    rcases mem_append.mp hd with hold | hnew
    · exact has_addDeclaration (h.parents d hold parent hd') e
    · cases mem_singleton.mp hnew
      cases hd'
      exact has_addDeclaration hparent e

theorem declare (h : o.Closed) (hid : o.Has id)
    (hentries : ∀ e ∈ entries, e.parent = id ∧ e.kind ≠ .module) :
    (o.declare entries).Closed ∧ (o.declare entries).Has id := by
  induction entries generalizing o with
  | nil => exact ⟨h, hid⟩
  | cons e entries ih =>
    obtain ⟨⟨hparent, hkind⟩, hentries⟩ := forall_mem_cons.mp hentries
    rw [← hparent] at hid
    have hnext := ih (h.addDeclaration hid hkind) (hparent ▸ has_addDeclaration hid e) hentries
    exact hnext

theorem declare_plain (h : o.Closed) (hid : o.Has id) (hplain : Plain id entries) :
    (o.declare entries).Closed ∧ (o.declare entries).Has id := by
  refine h.declare hid ?_
  intro e he
  obtain ⟨hparent, hkind⟩ := hplain e he
  refine ⟨hparent, ?_⟩
  rcases hkind with hkind | hkind | hkind <;> simp [hkind]

theorem endMember (h : o.Closed) (opened : UnclosedMember) (s : Statement) :
    (o.endMember opened s).Closed := by
  have hnext : (o.endMember opened s).nextId = o.nextId := by
    rw [nextId, nextId, Outline.endMember, length_map]
  have hhas {id : DeclarationId} (hid : o.Has id) : (o.endMember opened s).Has id :=
    ⟨hid.1, by rw [hnext]; exact hid.2⟩
  refine ⟨?_, ?_, fun body hbody => hhas (h.members body hbody)⟩
  · obtain ⟨d, rest, hdeclarations, hmodule, hnone, hname, hrest⟩ := h.module
    simp only [Outline.endMember, hdeclarations, map_cons]
    refine ⟨_, _, rfl, ?_, ?_, ?_, ?_⟩
    · split <;> exact hmodule
    · split <;> exact hnone
    · split <;> exact hname
    · refine forall_mem_map.mpr fun e' he' => ?_
      split <;> exact hrest e' he'
  · intro d hd parent hparent
    obtain ⟨d', hd', rfl⟩ := mem_map.mp hd
    refine hhas (h.parents d' hd' parent ?_)
    split at hparent <;> exact hparent

/-- Reading one statement keeps the outline closed. -/
theorem step (h : o.Closed) {block : Construct} (hblock : block.Within o) {s : Statement}
    {o' : Outline} {block' : Construct} (hstep : o.step block s = .ok (o', block')) :
    o'.Closed ∧ block'.Within o' := by
  have hne {kind : DeclarationKind} (hkind : kind.isMember = true) : kind ≠ .module := by
    rintro rfl
    cases hkind
  cases effect_of_step hstep with
  | names _ hclosed hplain =>
    refine ⟨(h.declare_plain h.has_base hplain).1, ?_⟩
    cases block' <;> trivial
  | implements _ | closeRecord _ => exact ⟨⟨h.module, h.parents, h.members⟩, trivial⟩
  | fields hplain _ =>
    have hall := (h.declare_plain h.has_base hplain).1
    exact ⟨⟨hall.module, hall.parents, hall.members⟩, trivial⟩
  | @bodyless _ access _ signature hkind _ _ =>
    have hall := h.addDeclaration (e := {
      name := signature.name, kind := _, parent := o.base, access, type? := signature.type?
      parameters := signature.parameters, extent := s.cover?.getD signature.name.span })
      h.has_base (hne hkind)
    exact ⟨⟨hall.module, hall.parents, hall.members⟩, trivial⟩
  | openMember hkind _ _ => exact ⟨h.addDeclaration h.has_base (hne hkind), h.has_nextId _⟩
  | openRecord _ => exact ⟨h.addDeclaration h.has_base (by simp), h.has_nextId _⟩
  | keep hplain =>
    obtain ⟨hlocals, hmember⟩ := h.declare_plain hblock hplain
    refine ⟨⟨hlocals.module, hlocals.parents, ?_⟩, hmember⟩
    exact forall_mem_append.mpr ⟨hlocals.members, forall_mem_singleton.mpr hmember⟩
  | closeMember => exact ⟨h.endMember _ s, trivial⟩
  | line hline hsame _ =>
    obtain ⟨hall, hopened⟩ := h.declare hblock fun e he =>
      ⟨(hline e he).1, by rw [(hline e he).2]; simp⟩
    refine ⟨hall, ?_⟩
    rw [Construct.Within, hsame]
    exact hopened

end Closed

theorem closed_of_read {base : DeclarationId} {source : Source} {o : Outline}
    (h : read base source = .ok o) : o.Closed := by
  obtain ⟨_, -, hclosed, -⟩ := keeps_of_read (P := fun _ o block => o.Closed ∧ block.Within o)
    (fun hkept hstep => hkept.1.step hkept.2 hstep) ⟨.start base source, trivial⟩ h
  exact hclosed

end Outline

end VbaRefactor
