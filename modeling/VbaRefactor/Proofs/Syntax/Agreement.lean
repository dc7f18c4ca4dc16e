import VbaRefactor.Proofs.Syntax.Effects
import VbaRefactor.Proofs.Syntax.Lists

/-!
# Declarations and items agree

While a module is read, a member is declared by its first statement and becomes an item by its last.
The declarations of members and the items that are members are the same in the same order all the
same, everything is declared in something that was declared before, and the items stand one after
another in the text.
-/

namespace VbaRefactor

open List Statement

variable {id : DeclarationId} {e : Entry} {s : Statement} {text : Text}

/-- What the declaration of a member and its item have to agree on. -/
structure Face where
  declaration : DeclarationId
  kind : DeclarationKind
  /-- The span of each parameter. -/
  spans : List Span
  hasBody : Bool

/-- The spans of a list of parameters, if there is one. -/
def ParameterList.spansOf (list? : Option ParameterList) : List Span := (list?.map spans).getD []

def Declaration.face (d : Declaration) : Face :=
  ⟨d.id, d.kind, d.parameters.map (·.extent.span), d.kind.hasBody⟩

def MemberItem.face (node : MemberItem) : Face :=
  ⟨node.declaration, node.kind, ParameterList.spansOf node.list?, node.body?.isSome⟩

/-- The declarations of this kind can have others in them. -/
def DeclarationKind.isScope (kind : DeclarationKind) : Bool :=
  kind = .module || kind = .record || kind.isMember

theorem Statement.spans_of_signature {nameAt : Nat} {found : Signature}
    (h : s.signature text nameAt = .ok found) :
    ParameterList.spansOf found.list? = found.parameters.map (·.extent.span) := by
  rw [signature] at h
  split at h
  · cases h
  split at h
  · split at h
    · cases h
      rfl
    · split at h
      · cases h
      · cases h
        rfl
  · cases h

namespace Outline

variable {o o' : Outline} {block block' : Construct} {rest : List Statement} {entries : List Entry}

/-! ## Every declaration stands in an earlier one -/

/-- The kinds of declarations, and what each stands in. -/
abbrev Shape := List (DeclarationKind × Option DeclarationId)

/-- The number, counted from `base`, is that of a declaration that can have others in it. -/
def Shape.HasScope (base : DeclarationId) (shape : Shape) (id : DeclarationId) : Prop :=
  ∃ i kind parent?, shape[i]? = some (kind, parent?) ∧ id = base + i ∧ kind.isScope = true

/-- Every declaration but a module stands in an earlier one. -/
def Shape.Nested (base : DeclarationId) (shape : Shape) : Prop :=
  ∀ i kind parent?, shape[i]? = some (kind, parent?) → kind = .module ∨
    ∃ j < i, ∃ kind' parent'?, shape[j]? = some (kind', parent'?) ∧ parent? = some (base + j) ∧
      kind'.isScope = true

namespace Shape

variable {base : DeclarationId} {shape more : Shape}

theorem HasScope.append (h : HasScope base shape id) (more : Shape) :
    HasScope base (shape ++ more) id := by
  obtain ⟨i, kind, parent?, hi, hid, hkind⟩ := h
  refine ⟨i, kind, parent?, ?_, hid, hkind⟩
  rw [getElem?_append_left (List.getElem?_eq_some_iff.mp hi).1, hi]

theorem Nested.append (h : Nested base shape)
    (hmore : ∀ x ∈ more, ∃ id, x.2 = some id ∧ HasScope base shape id) :
    Nested base (shape ++ more) := by
  have hold {j : Nat} {x : DeclarationKind × Option DeclarationId} (hj : shape[j]? = some x) :
      j < shape.length ∧ (shape ++ more)[j]? = some x := by
    have hlt := (List.getElem?_eq_some_iff.mp hj).1
    exact ⟨hlt, by rw [getElem?_append_left hlt, hj]⟩
  intro i kind parent? hi
  rw [getElem?_append] at hi
  split at hi
  · refine (h i kind parent? hi).imp_right ?_
    rintro ⟨j, hlt, kind', parent'?, hj, hrest⟩
    exact ⟨j, hlt, kind', parent'?, (hold hj).2, hrest⟩
  · obtain ⟨_, hid, j, kind', parent'?, hj, rfl, hkind⟩ := hmore _ (mem_of_getElem? hi)
    have hlt : j < i := Nat.lt_of_lt_of_le (hold hj).1 (by omega)
    exact .inr ⟨j, hlt, kind', parent'?, (hold hj).2, hid, hkind⟩

end Shape

/-- The kinds of the declarations of an outline, and what each stands in. -/
def shape (o : Outline) : Shape := o.declarations.map fun d => (d.kind, d.parent?)

/-- The member or record that is open. -/
def Construct.scope? : Construct → Option DeclarationId
  | .member opened => some opened.declaration
  | .record opened => some opened.declaration
  | _ => none

theorem Construct.scope?_of_isClosed (h : block.isClosed = true) : block.scope? = none := by
  cases block <;> first | rfl | cases h

theorem shape_declare (o : Outline) (entries : List Entry) :
    (o.declare entries).shape = o.shape ++ entries.map fun e => (e.kind, some e.parent) := by
  induction entries generalizing o with
  | nil => exact (append_nil _).symm
  | cons e entries ih =>
    have hfirst : (o.addDeclaration e).shape = o.shape ++ [(e.kind, some e.parent)] := map_append
    exact (ih (o.addDeclaration e)).trans (by rw [hfirst, append_assoc]; rfl)

theorem shape_endMember (o : Outline) (opened : UnclosedMember) (s : Statement) :
    (o.endMember opened s).shape = o.shape := by
  simp only [shape, endMember, map_map]
  refine map_congr_left ?_
  intro d _
  simp only [Function.comp_apply]
  split <;> rfl

/-- All that stands in something stands in an earlier declaration, and so will what is read next. -/
structure Nested (o : Outline) (block : Construct) : Prop where
  base : o.shape.HasScope o.base o.base
  parents : o.shape.Nested o.base
  opened : ∀ id ∈ block.scope?, o.shape.HasScope o.base id

namespace Nested

theorem declare (h : o.Nested block) {entries : List Entry} (hid : o.shape.HasScope o.base id)
    (hparent : ∀ e ∈ entries, e.parent = id) : (o.declare entries).Nested block := by
  refine ⟨?_, ?_, ?_⟩
  · rw [shape_declare, base_declare]
    exact h.base.append _
  · rw [shape_declare, base_declare]
    refine h.parents.append ?_
    exact forall_mem_map.mpr fun e he => ⟨id, congrArg some (hparent e he), hid⟩
  · rw [shape_declare, base_declare]
    exact fun id hid => (h.opened id hid).append _

theorem addDeclaration (h : o.Nested block) (hparent : e.parent = o.base) :
    (o.addDeclaration e).Nested block :=
  h.declare h.base (forall_mem_singleton.mpr hparent)

/-- A declaration in the module, in which the next ones stand. -/
theorem enter (h : o.Nested block) (hparent : e.parent = o.base) (hkind : e.kind.isScope = true)
    (hblock : block'.scope? = some o.nextId) : (o.addDeclaration e).Nested block' := by
  have hall := h.addDeclaration hparent
  refine ⟨hall.base, hall.parents, ?_⟩
  rw [hblock]
  rintro id ⟨⟩
  refine ⟨o.shape.length, e.kind, some e.parent, ?_, ?_, hkind⟩
  · rw [show (o.addDeclaration e).shape = o.shape ++ [(e.kind, some e.parent)] from map_append,
      getElem?_concat_length]
  · rw [shape, length_map]
    rfl

theorem leave (h : o.Nested block) (hblock : block'.scope? = none) : o.Nested block' := by
  refine ⟨h.base, h.parents, ?_⟩
  rw [hblock]
  rintro id ⟨⟩

theorem effect (h : o.Nested block) (heffect : Effect o s block o' block') : o'.Nested block' := by
  cases heffect with
  | names _ hblock hplain =>
    exact (h.declare h.base fun e he => (hplain e he).1).leave (Construct.scope?_of_isClosed hblock)
  | implements | closeRecord => exact ⟨h.base, h.parents, by rintro id ⟨⟩⟩
  | fields hplain =>
    have hall := h.declare h.base fun e he => (hplain e he).1
    exact ⟨hall.base, hall.parents, hall.opened⟩
  | @bodyless kind access _ signature =>
    have hall : (o.addMember kind access s signature).Nested .code := h.addDeclaration rfl
    exact ⟨hall.base, hall.parents, hall.opened⟩
  | openMember hmember => exact h.enter rfl (by simp [DeclarationKind.isScope, hmember]) rfl
  | openRecord => exact h.enter rfl rfl rfl
  | keep hplain =>
    have hall := h.declare (h.opened _ rfl) fun e he => (hplain e he).1
    exact ⟨hall.base, hall.parents, hall.opened⟩
  | closeMember =>
    refine ⟨?_, ?_, by rintro id ⟨⟩⟩
    · rw [shape_endMember]
      exact h.base
    · rw [shape_endMember]
      exact h.parents
  | line hline hsame =>
    have hall := h.declare (h.opened _ rfl) fun e he => (hline e he).1
    refine ⟨hall.base, hall.parents, ?_⟩
    rintro id ⟨⟩
    exact hall.opened _ (congrArg some hsame.symm)

theorem start (base : DeclarationId) (source : Source) : (start base source).Nested .code := by
  refine ⟨⟨0, .module, none, rfl, rfl, rfl⟩, ?_, by rintro id ⟨⟩⟩
  intro i kind parent? hi
  rw [shape, Outline.start, map_singleton, getElem?_singleton] at hi
  split at hi
  · cases hi
    exact .inl rfl
  · cases hi

end Nested

/-! ## Every member has its item -/

/-- What the declarations of members say. -/
def faces (o : Outline) : List Face := (o.declarations.filter (·.kind.isMember)).map Declaration.face

/-- The items that are members. -/
def nodes (o : Outline) : List MemberItem := o.items.filterMap Item.member?

/-- The member that is declared and not yet an item. -/
def Construct.faces : Construct → List Face
  | .member opened => [⟨opened.declaration, opened.kind, ParameterList.spansOf opened.list?, true⟩]
  | _ => []

theorem Construct.faces_of_isClosed (h : block.isClosed = true) : block.faces = [] := by
  cases block <;> first | rfl | cases h

theorem faces_declare (h : ∀ e ∈ entries, e.kind.isMember = false) (o : Outline) :
    (o.declare entries).faces = o.faces := by
  induction entries generalizing o with
  | nil => rfl
  | cons e entries ih =>
    obtain ⟨he, hentries⟩ := forall_mem_cons.mp h
    refine (ih hentries (o.addDeclaration e)).trans ?_
    simp [faces, addDeclaration, he]

theorem isMember_of_plain {parent : DeclarationId} (h : Plain parent entries) :
    ∀ e ∈ entries, e.kind.isMember = false := by
  intro e he
  rcases (h e he).2 with hkind | hkind | hkind <;> rw [hkind] <;> rfl

theorem faces_addMember {kind : DeclarationKind} (hkind : kind.isMember = true) (o : Outline)
    (access : Access) (s : Statement) (signature : Signature) :
    (o.addMember kind access s signature).faces =
      o.faces ++ [⟨o.nextId, kind, signature.parameters.map (·.extent.span), kind.hasBody⟩] := by
  simp [faces, addMember, addDeclaration, hkind, Declaration.face]

theorem faces_endMember (o : Outline) (opened : UnclosedMember) (s : Statement) :
    (o.endMember opened s).faces = o.faces := by
  simp only [faces, endMember, filter_map, map_map]
  have hkind : (fun d : Declaration => d.kind.isMember) ∘ (fun d : Declaration =>
      if d.id = opened.declaration then
        { d with extent := o.source.text.extent ⟨opened.signature.span.start, endOf s⟩ }
      else d) = fun d => d.kind.isMember := by
    funext d
    simp only [Function.comp_apply]
    split <;> rfl
  rw [hkind]
  refine map_congr_left ?_
  intro d _
  simp only [Function.comp_apply]
  split <;> rfl

/-- The members that are declared are those that are items, in the same order, and the open one. -/
def Faced (o : Outline) (block : Construct) : Prop :=
  o.faces = o.nodes.map MemberItem.face ++ block.faces

theorem nodes_addItem (o : Outline) (item : Item) :
    (o.addItem item).nodes = o.nodes ++ item.member?.toList := by
  rw [nodes, addItem, filterMap_append, nodes]
  cases hitem : item.member? <;> simp [hitem]

theorem nodes_declare (o : Outline) (entries : List Entry) : (o.declare entries).nodes = o.nodes :=
  declare_of_step nodes (fun _ _ => rfl) o entries

/-- A member that is closed becomes an item that says what its declaration does. -/
theorem faces_nodes_endMember (o : Outline) (opened : UnclosedMember) (s : Statement) :
    (o.endMember opened s).nodes.map MemberItem.face =
      o.nodes.map MemberItem.face ++ (Construct.member opened).faces := by
  rw [nodes, endMember, filterMap_append, map_append]
  rfl

/-- Where no member is declared, opened or closed. -/
theorem Faced.same (h : o.Faced block) (hfaces : o'.faces = o.faces) (hnodes : o'.nodes = o.nodes)
    (hblock : block'.faces = block.faces) : o'.Faced block' := by
  rw [Faced, hfaces, hnodes, hblock, ← h]

theorem Faced.effect (h : o.Faced block) (heffect : Effect o s block o' block') : o'.Faced block' := by
  cases heffect with
  | names hblock hblock' hplain =>
    refine h.same (faces_declare (isMember_of_plain hplain) o) (nodes_declare o _) ?_
    rw [Construct.faces_of_isClosed hblock, Construct.faces_of_isClosed hblock']
  | implements | closeRecord =>
    exact h.same rfl ((nodes_addItem o _).trans (append_nil _)) rfl
  | fields hplain =>
    refine h.same (faces_declare (isMember_of_plain hplain) o) ?_ rfl
    exact (nodes_addItem _ _).trans ((append_nil _).trans (nodes_declare o _))
  | bodyless hmember hbody hsignature =>
    refine (faces_addMember hmember o _ s _).trans ?_
    rw [nodes_addItem, h, ← spans_of_signature hsignature, hbody, map_append,
      append_assoc, append_assoc]
    rfl
  | openMember hmember hbody hsignature =>
    refine (faces_addMember hmember o _ s _).trans ?_
    rw [h, ← spans_of_signature hsignature, hbody, append_assoc]
    rfl
  | @openRecord access name =>
    have hrecord : (o.addBlock .record access s name).faces = o.faces :=
      faces_declare (forall_mem_singleton.mpr rfl) o
    exact h.same hrecord rfl rfl
  | keep hplain =>
    exact h.same (faces_declare (isMember_of_plain hplain) o) (nodes_declare o _) rfl
  | closeMember =>
    rw [Faced, faces_endMember, h, faces_nodes_endMember]
    exact (append_nil _).symm
  | line hline =>
    refine h.same (faces_declare ?_ o) (nodes_declare o _) rfl
    intro e he
    rw [(hline e he).2]
    rfl

theorem Faced.start (base : DeclarationId) (source : Source) : (start base source).Faced .code := rfl

/-- Every statement that is kept is kept for a member that is declared. -/
def Housed (o : Outline) : Prop := ∀ body ∈ o.bodies, ∃ face ∈ o.faces, face.declaration = body.member

theorem Housed.grow (h : o.Housed) (hbodies : o'.bodies = o.bodies) {more : List Face}
    (hfaces : o'.faces = o.faces ++ more) : o'.Housed := by
  intro body hbody
  rw [hbodies] at hbody
  obtain ⟨face, hface, hmember⟩ := h body hbody
  rw [hfaces]
  exact ⟨face, mem_append_left _ hface, hmember⟩

theorem Housed.same (h : o.Housed) (hbodies : o'.bodies = o.bodies) (hfaces : o'.faces = o.faces) :
    o'.Housed :=
  h.grow hbodies (hfaces.trans (append_nil _).symm)

theorem Housed.effect (h : o.Housed) (hfaced : o.Faced block) (heffect : Effect o s block o' block') :
    o'.Housed := by
  cases heffect with
  | names _ _ hplain | fields hplain =>
    exact h.same (bodies_declare o _) (faces_declare (isMember_of_plain hplain) o)
  | implements | closeRecord => exact h.same rfl rfl
  | bodyless hmember | openMember hmember => exact h.grow rfl (faces_addMember hmember o _ s _)
  | openRecord => exact h.same rfl (faces_declare (forall_mem_singleton.mpr rfl) o)
  | @keep opened entries hplain =>
    have hfaces := faces_declare (isMember_of_plain hplain) o
    have hopened : (⟨opened.declaration, opened.kind, ParameterList.spansOf opened.list?, true⟩ : Face) ∈
        (o.declare entries).faces := by
      rw [hfaces, hfaced]
      exact mem_append_right _ (mem_singleton_self _)
    exact forall_mem_append.mpr ⟨h.same (bodies_declare o _) hfaces,
      forall_mem_singleton.mpr ⟨_, hopened, rfl⟩⟩
  | closeMember => exact h.same rfl (faces_endMember o _ s)
  | line hline =>
    refine h.same (bodies_declare o _) (faces_declare ?_ o)
    intro e he
    rw [(hline e he).2]
    rfl

/-! ## Items stand one after another -/

/-- A statement begins with its first token and ends with its last one. -/
theorem exists_ends (hs : s.StandsIn text) (hsome : s ≠ []) :
    ∃ first ∈ s, ∃ last ∈ s, startOf s = first.start ∧ endOf s = last.stop ∧
      s.cover? = some ⟨startOf s, endOf s⟩ ∧ startOf s < endOf s := by
  have hpos := length_pos_iff.mpr hsome
  have hfirst : s[0]? = some s[0] := getElem?_eq_getElem hpos
  have hlast : s[s.length - 1]? = some s[s.length - 1] := getElem?_eq_getElem (by omega)
  have hstart : startOf s = s[0].start := by
    rw [startOf, head?_eq_getElem?, hfirst]
    rfl
  have hend : endOf s = s[s.length - 1].stop := by
    rw [endOf, getLast?_eq_getElem?, hlast]
    rfl
  obtain ⟨hle, hle'⟩ := hs.le_of_index_le hfirst hlast (by omega)
  refine ⟨s[0], mem_of_getElem? hfirst, _, mem_of_getElem? hlast, hstart, hend, ?_, ?_⟩
  · rw [cover?, head?_eq_getElem?, getLast?_eq_getElem?, hfirst, hlast, hstart, hend]
    simp only [Token.span, Span.cover, Nat.min_eq_left hle, Nat.max_eq_right hle']
  · have hwidth := hs.lt (mem_of_getElem? hlast)
    omega

/-- Where the open member or record begins; where none is open, the next item begins after `pos`. -/
def Construct.begins (pos : Nat) : Construct → Nat
  | .member opened => opened.signature.span.start
  | .record opened => opened.start
  | _ => pos

theorem Construct.begins_of_isClosed (h : block.isClosed = true) (pos : Nat) : block.begins pos = pos := by
  cases block <;> first | rfl | cases h

/-- The items stand one after another in front of what is open, when the statements up to `pos` have
been read. -/
structure Laid (o : Outline) (block : Construct) (pos : Nat) : Prop where
  given : ∀ item ∈ o.items, item.extent.span.start < item.extent.span.stop
  ordered : o.items.Pairwise fun a b => a.extent.span.stop ≤ b.extent.span.start
  before : ∀ item ∈ o.items, item.extent.span.stop ≤ block.begins pos
  opened : block.begins pos ≤ pos

namespace Laid

variable {pos : Nat}

theorem same (h : o.Laid block pos) (hitems : o'.items = o.items) {pos' : Nat}
    (hle : block.begins pos ≤ block'.begins pos') (hle' : block'.begins pos' ≤ pos') :
    o'.Laid block' pos' := by
  refine ⟨?_, ?_, ?_, hle'⟩
  · rw [hitems]
    exact h.given
  · rw [hitems]
    exact h.ordered
  · rw [hitems]
    exact fun item hitem => Nat.le_trans (h.before item hitem) hle

theorem add (h : o.Laid block pos) {item : Item} {start stop : Nat}
    (hitems : o'.items = o.items ++ [item]) (hspan : item.extent.span = ⟨start, stop⟩)
    (hstart : block.begins pos ≤ start) (hlt : start < stop) : o'.Laid .code stop := by
  refine ⟨?_, ?_, ?_, Nat.le_refl _⟩
  · rw [hitems]
    refine forall_mem_append.mpr ⟨h.given, forall_mem_singleton.mpr ?_⟩
    rw [hspan]
    exact hlt
  · rw [hitems]
    refine pairwise_append.mpr ⟨h.ordered, pairwise_singleton _ _, ?_⟩
    intro a ha b hb
    cases mem_singleton.mp hb
    rw [hspan]
    exact Nat.le_trans (h.before a ha) hstart
  · rw [hitems]
    refine forall_mem_append.mpr ⟨?_, forall_mem_singleton.mpr ?_⟩
    · intro a ha
      exact Nat.le_trans (h.before a ha) (Nat.le_of_lt (Nat.lt_of_le_of_lt hstart hlt))
    · rw [hspan]
      exact Nat.le_refl _

theorem effect (h : o.Laid block pos) (hs : s.StandsIn text) (hsome : s ≠ [])
    (hpos : pos ≤ startOf s) (heffect : Effect o s block o' block') : o'.Laid block' (endOf s) := by
  obtain ⟨-, -, -, -, -, -, hcover, hlt⟩ := exists_ends hs hsome
  have hopened := h.opened
  have hstatement (name : Token) : (o.statementExtent s name).span = ⟨startOf s, endOf s⟩ := by
    rw [statementExtent, hcover, Text.extent]
    rfl
  cases heffect with
  | names hblock hblock' =>
    refine h.same (items_declare o _) ?_ ?_
    · rw [Construct.begins_of_isClosed hblock, Construct.begins_of_isClosed hblock']
      omega
    · exact Nat.le_of_eq (Construct.begins_of_isClosed hblock' _)
  | implements hextent =>
    exact h.add rfl (Option.some.inj (hextent.symm.trans hcover)) hpos hlt
  | fields _ hextent =>
    exact h.add (congrArg (· ++ _) (items_declare o _))
      (Option.some.inj (hextent.symm.trans hcover)) hpos hlt
  | bodyless => exact h.add rfl (hstatement _) hpos hlt
  | @openMember _ _ _ _ signature =>
    have hstart : (o.statementExtent s signature.name).span.start = startOf s := by rw [hstatement]
    refine h.same ?_ ?_ ?_
    · rfl
    · show pos ≤ (o.statementExtent s signature.name).span.start
      omega
    · show (o.statementExtent s signature.name).span.start ≤ endOf s
      omega
  | @openRecord access name =>
    have hstart : (s.head?.map Token.start).getD name.start = startOf s := by
      cases s with
      | nil => exact absurd rfl hsome
      | cons t s => rfl
    refine h.same ?_ ?_ ?_
    · rfl
    · show pos ≤ (s.head?.map Token.start).getD name.start
      omega
    · show (s.head?.map Token.start).getD name.start ≤ endOf s
      omega
  | keep =>
    refine h.same ?_ (Nat.le_refl _) (Nat.le_trans hopened (by omega))
    exact items_declare o _
  | closeMember =>
    exact h.add rfl rfl (Nat.le_refl _) (Nat.lt_of_le_of_lt hopened (by omega))
  | line _ _ hstart =>
    refine h.same (items_declare o _) (Nat.le_of_eq hstart.symm) ?_
    exact Nat.le_trans (Nat.le_of_eq hstart) (Nat.le_trans hopened (by omega))
  | closeRecord hextent =>
    exact h.add rfl hextent (Nat.le_refl _) (Nat.lt_of_le_of_lt hopened (by omega))

theorem start (base : DeclarationId) (source : Source) : (start base source).Laid .code 0 :=
  ⟨forall_mem_nil _, .nil, forall_mem_nil _, Nat.le_refl _⟩

end Laid

/-! ## What an outline keeps -/

variable {base : DeclarationId} {source : Source}

section

variable (h : read base source = .ok o)

include h

theorem nested_of_read : o.shape.Nested o.base := by
  obtain ⟨block, -, hnested⟩ := keeps_of_read (P := fun _ o block => o.Nested block)
    (fun h hstep => h.effect (effect_of_step hstep)) (Nested.start base source) h
  exact hnested.parents

/-- The declarations of members and the items that are members are the same in the same order. -/
theorem faces_of_read : o.faces = o.nodes.map MemberItem.face := by
  obtain ⟨block, hclosed, hfaced⟩ := keeps_of_read (P := fun _ o block => o.Faced block)
    (fun h hstep => h.effect (effect_of_step hstep)) (Faced.start base source) h
  rw [hfaced, Construct.faces_of_isClosed hclosed, append_nil]

/-- The statements in bodies stand in members. -/
theorem exists_member_of_mem_bodies {body : MemberStatement} (hbody : body ∈ o.bodies) :
    ∃ d ∈ o.declarations, d.id = body.member ∧ d.kind.isMember = true := by
  obtain ⟨_, -, -, hhoused⟩ := keeps_of_read (P := fun _ o block => o.Faced block ∧ o.Housed)
    (fun h hstep => ⟨h.1.effect (effect_of_step hstep), h.2.effect h.1 (effect_of_step hstep)⟩)
    ⟨Faced.start base source, forall_mem_nil _⟩ h
  obtain ⟨face, hface, hmember⟩ := hhoused body hbody
  obtain ⟨d, hd, rfl⟩ := mem_map.mp hface
  obtain ⟨hd, hkind⟩ := mem_filter.mp hd
  exact ⟨d, hd, hmember, hkind⟩

/-- The items of an outline have some width and stand one after another. -/
theorem laid_of_read :
    (∀ item ∈ o.items, item.extent.span.start < item.extent.span.stop) ∧
      o.items.Pairwise fun a b => a.extent.span.stop ≤ b.extent.span.start := by
  -- The statements that are left stand behind all that was read.
  let P (rest : List Statement) (o : Outline) (block : Construct) : Prop :=
    ∃ pos, o.Laid block pos ∧ (∀ s ∈ rest, s ≠ [] ∧ s.StandsIn source.text ∧ pos ≤ startOf s) ∧
      rest.Pairwise fun a b => ∀ x ∈ a, ∀ y ∈ b, x.stop ≤ y.start
  have hstep {s : Statement} {rest : List Statement} {o : Outline} {block : Construct} {o' : Outline}
      {block' : Construct} (h : P (s :: rest) o block) (hstep : o.step block s = .ok (o', block')) :
      P rest o' block' := by
    obtain ⟨pos, hlaid, hall, hpairs⟩ := h
    obtain ⟨⟨hsome, hs, hpos⟩, hrest⟩ := forall_mem_cons.mp hall
    obtain ⟨hfirst, hpairs⟩ := pairwise_cons.mp hpairs
    refine ⟨endOf s, hlaid.effect hs hsome hpos (effect_of_step hstep), ?_, hpairs⟩
    intro s' hs'
    obtain ⟨hsome', hstands', -⟩ := hrest s' hs'
    obtain ⟨-, -, last, hlast, -, hend, -⟩ := exists_ends hs hsome
    obtain ⟨first, hfirst', -, -, hstart, -⟩ := exists_ends hstands' hsome'
    refine ⟨hsome', hstands', ?_⟩
    rw [hend, hstart]
    exact hfirst s' hs' last hlast first hfirst'
  have hstart : P (ofTokens (tokenize source.text)) (start base source) .code := by
    refine ⟨0, Laid.start base source, ?_, ofTokens_ordered source.text⟩
    intro s hs
    refine ⟨?_, standsIn_of_mem_ofTokens hs, Nat.zero_le _⟩
    rintro rfl
    cases (mem_filter.mp hs).2
  obtain ⟨_, -, _, hlaid, -⟩ := keeps_of_read hstep hstart h
  exact ⟨hlaid.given, hlaid.ordered⟩

end

end Outline

end VbaRefactor
