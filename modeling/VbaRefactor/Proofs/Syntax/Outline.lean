import VbaRefactor.Project
import VbaRefactor.Proofs.Syntax.Effects

/-!
# What an outline is made of

Every part of an outline comes from the statements of its source: the declarations are numbered one
after another and belong to the module, the lists of parameters stand in signatures, and the bodies
are statements.
-/

namespace VbaRefactor

open List

variable {base : DeclarationId} {o : Outline} {source : Source}

/-- The signature of one of the statements has this list of parameters. -/
def HasSignature (text : Text) (statements : List Statement) (list : ParameterList) : Prop :=
  ∃ s ∈ statements, ∃ nameAt signature,
    s.signature text nameAt = .ok signature ∧ signature.list? = some list

namespace Outline

/-- The outline holds what some of the statements of a source say. -/
structure ReadFrom (statements : List Statement) (source : Source) (base : DeclarationId)
    (o : Outline) : Prop where
  ofSource : o.source = source
  ofBase : o.base = base
  declared : ∀ i d, o.declarations[i]? = some d → d.id = base + i ∧ d.module = source.id
  lists : ∀ node ∈ o.items.filterMap Item.member?, ∀ list ∈ node.list?,
    HasSignature source.text statements list
  bodies : ∀ body ∈ o.bodies, body.tokens ∈ statements

/-- The member that is being read has its list of parameters from one of the statements. -/
def Construct.OpenedBy (text : Text) (statements : List Statement) : Construct → Prop
  | .member opened => ∀ list ∈ opened.list?, HasSignature text statements list
  | _ => True

namespace ReadFrom

variable {statements : List Statement}

theorem start (statements : List Statement) (source : Source) (base : DeclarationId) :
    ReadFrom statements source base (.start base source) := by
  refine ⟨rfl, rfl, ?_, by simp [Outline.start], by simp [Outline.start]⟩
  intro i d hd
  rw [Outline.start, getElem?_singleton] at hd
  split at hd
  · rename_i hi
    cases hd
    exact ⟨by rw [hi]; rfl, rfl⟩
  · cases hd

section

variable (h : ReadFrom statements source base o)

include h

theorem addDeclaration (e : Entry) : ReadFrom statements source base (o.addDeclaration e) := by
  refine ⟨h.ofSource, h.ofBase, ?_, h.lists, h.bodies⟩
  intro i d hd
  rw [Outline.addDeclaration, getElem?_append] at hd
  split at hd
  · exact h.declared i d hd
  rw [getElem?_singleton] at hd
  split at hd
  · rename_i hle hi
    have hi : o.declarations.length = i := by omega
    cases hd
    refine ⟨?_, by rw [h.ofSource]⟩
    rw [nextId, h.ofBase, hi]
  · cases hd

theorem addItem {item : Item}
    (hitem : ∀ node ∈ item.member?, ∀ list ∈ node.list?, HasSignature source.text statements list) :
    ReadFrom statements source base (o.addItem item) := by
  refine ⟨h.ofSource, h.ofBase, h.declared, ?_, h.bodies⟩
  intro node hnode
  rw [Outline.addItem, filterMap_append, mem_append] at hnode
  rcases hnode with hold | hnew
  · exact h.lists node hold
  · obtain ⟨_, hmem, hnode⟩ := mem_filterMap.mp hnew
    cases mem_singleton.mp hmem
    exact hitem node hnode

theorem declare (entries : List Entry) : ReadFrom statements source base (o.declare entries) := by
  induction entries generalizing o with
  | nil => exact h
  | cons e entries ih => exact ih (h.addDeclaration e)

theorem endMember {opened : UnclosedMember}
    (hopened : (Construct.member opened).OpenedBy source.text statements) (s : Statement) :
    ReadFrom statements source base (o.endMember opened s) := by
  refine ⟨h.ofSource, h.ofBase, ?_, ?_, h.bodies⟩
  · intro i d hd
    rw [Outline.endMember, getElem?_map] at hd
    obtain ⟨old, hold, rfl⟩ := Option.map_eq_some_iff.mp hd
    have hdeclared := h.declared i old hold
    split <;> exact hdeclared
  · exact (h.addItem (by rintro node ⟨⟩; exact hopened)).lists

theorem step {block : Construct} (hblock : block.OpenedBy source.text statements) {s : Statement}
    (hs : s ∈ statements) {o' : Outline} {block' : Construct}
    (hstep : o.step block s = .ok (o', block')) :
    ReadFrom statements source base o' ∧ block'.OpenedBy source.text statements := by
  have hsignature {nameAt : Nat} {signature : Statement.Signature}
      (hread : s.signature o.source.text nameAt = .ok signature) :
      ∀ list ∈ signature.list?, HasSignature source.text statements list := by
    intro list hlist
    rw [h.ofSource] at hread
    exact ⟨s, hs, nameAt, signature, hread, hlist⟩
  cases effect_of_step hstep with
  | names _ hclosed _ =>
    refine ⟨h.declare _, ?_⟩
    cases block' <;> trivial
  | implements _ =>
    refine ⟨⟨h.ofSource, h.ofBase, h.declared, (h.addItem ?_).lists, h.bodies⟩, trivial⟩
    rintro node ⟨⟩
  | fields _ _ => exact ⟨(h.declare _).addItem (by rintro node ⟨⟩), trivial⟩
  | bodyless _ _ hread =>
    refine ⟨(h.addDeclaration _).addItem ?_, trivial⟩
    rintro node ⟨⟩
    exact hsignature hread
  | openMember _ _ hread => exact ⟨h.addDeclaration _, hsignature hread⟩
  | openRecord _ => exact ⟨h.addDeclaration _, trivial⟩
  | @keep opened entries _ =>
    have hlocals := h.declare entries
    refine ⟨⟨hlocals.ofSource, hlocals.ofBase, hlocals.declared, hlocals.lists, ?_⟩, hblock⟩
    exact forall_mem_append.mpr ⟨hlocals.bodies, forall_mem_singleton.mpr hs⟩
  | closeMember => exact ⟨h.endMember hblock s, trivial⟩
  | line _ _ _ => exact ⟨h.declare _, trivial⟩
  | closeRecord _ => exact ⟨h.addItem (by rintro node ⟨⟩), trivial⟩

end

end ReadFrom

theorem readFrom_of_read (h : read base source = .ok o) :
    ReadFrom (Statement.ofTokens (tokenize source.text)) source base o := by
  let statements := Statement.ofTokens (tokenize source.text)
  obtain ⟨_, -, -, hread, -⟩ := keeps_of_read
    (P := fun rest o block => (∀ s ∈ rest, s ∈ statements) ∧ ReadFrom statements source base o ∧
      block.OpenedBy source.text statements)
    (by
      rintro s rest o block o' block' ⟨hrest, hread, hblock⟩ hstep
      obtain ⟨hs, hrest⟩ := forall_mem_cons.mp hrest
      exact ⟨hrest, hread.step hblock hs hstep⟩)
    ⟨fun _ hs => hs, .start _ source base, trivial⟩ h
  exact hread

end Outline

end VbaRefactor
