import VbaRefactor.Proofs.Syntax.Scopes
import VbaRefactor.Proofs.Syntax.Tokens

/-!
# What statements declare at module level

What a module declares at its own level can be read off its statements alone, one after another:
`Statement.declares` says what each of them adds and in what construct the next one stands. This does
not depend on where the statements stand in the text.
-/

namespace VbaRefactor

open List Statement Except

variable {block block' : Construct} {member : DeclarationId} {rest : List Statement} {o' : Outline}

/-- What a declaration says, without where it stands. -/
structure Profile where
  name : Text
  kind : DeclarationKind
  access : Access
  type? : Option Text
  isWithEvents : Bool
  isArray : Bool
deriving DecidableEq, Repr

/-- What a declaration says. -/
def Declaration.profile (d : Declaration) : Profile :=
  { name := d.name, kind := d.kind, access := d.access, type? := d.type?
    isWithEvents := d.isWithEvents, isArray := d.isArray }

/-- The construct in which a statement stands, as far as it matters for reading on. -/
inductive Level where
  | code
  | fileHeader
  /-- A member that `End` and this word close. -/
  | member (closing : Text)
  | record
  /-- The enumeration of this name. -/
  | enumeration (type : Text)
deriving DecidableEq, Repr

/-- A module may end at this level. -/
def Level.mayEnd : Level → Bool
  | .code | .fileHeader => true
  | _ => false

/-- One variable of a field statement. -/
structure Declarator where
  profile : Profile
  /-- The name. -/
  selection : Span
  span : Span
  bounds? : Option Text
deriving DecidableEq, Repr

namespace Statement

/-- What a part of a field statement declares. -/
def declarator? (text : Text) (access : Access) (withEvents : Bool) (piece : Statement) :
    Option Declarator :=
  match piece.namedType? text, piece.cover? with
  | some found, some span => some {
      profile := {
        name := found.name.name, kind := .variable, access, type? := found.type?
        isWithEvents := withEvents || piece.isWord 0 "withevents", isArray := found.bounds?.isSome }
      selection := found.name.span
      span
      bounds? := found.bounds?.map text.slice }
  | _, _ => none

/-- What a part of a `Const` statement declares. -/
def constantProfile? (text : Text) (access : Access) (piece : Statement) : Option Profile :=
  (piece.namedType? text).map fun found =>
    { name := found.name.name, kind := .constant, access, type? := found.type?
      isWithEvents := false, isArray := false }

/-- Where the variables of a field statement start whose modifiers end before index `i`. -/
def variablesAt (s : Statement) (i : Nat) : Nat := if s.isWord i "withevents" then i + 1 else i

/-- The variables of a field statement whose modifiers end before index `i`. -/
def declarators (text : Text) (access : Access) (s : Statement) (i : Nat) : List Declarator :=
  if s.variablesAt i < s.length then
    (splitAtCommas 0 (s.drop (s.variablesAt i))).filterMap
      (declarator? text access (s.isWord i "withevents"))
  else []

/-- What the first statement of a member declares. -/
def memberProfile? (text : Text) (s : Statement) (kind : DeclarationKind) (access : Access)
    (nameAt : Nat) : Option Profile :=
  (s.signature text nameAt).toOption.map fun signature =>
    { name := signature.name.name, kind, access, type? := signature.type?
      isWithEvents := false, isArray := false }

/-- What the first statement of a record or an enumeration declares. -/
def blockProfile? (s : Statement) (kind : DeclarationKind) (access : Access) (nameAt : Nat) :
    Option Profile :=
  s[nameAt]?.map fun name =>
    { name := name.name, kind, access, type? := none, isWithEvents := false, isArray := false }

/-- What a line of an enumeration declares. -/
def enumeratorProfile? (type : Text) (s : Statement) : Option Profile :=
  (s.head?.filter (·.kind = .identifier)).map fun name =>
    { name := name.name, kind := .constant, access := .public, type? := some type
      isWithEvents := false, isArray := false }

/-- What a statement declares at module level, and in what the next one stands; nothing where it
cannot be read. -/
def declares (text : Text) (s : Statement) : Level → Option (List Profile × Level)
  | .code =>
    match ModuleStatement.ofStatement s with
    | .ignored | .implements => some ([], .code)
    | .fileHeader => some ([], .fileHeader)
    | .procedure kind access nameAt closing =>
      (s.memberProfile? text kind access nameAt).map ([·], .member closing)
    | .bodyless kind access nameAt => (s.memberProfile? text kind access nameAt).map ([·], .code)
    | .unknownAccessor => none
    | .record access nameAt => (s.blockProfile? .record access nameAt).map ([·], .record)
    | .enumeration access nameAt =>
      (s.blockProfile? .enumeration access nameAt).map fun p => ([p], .enumeration p.name)
    | .constants access start =>
      some ((splitAtCommas 0 (s.drop start)).filterMap (constantProfile? text access), .code)
    | .fields access start => some ((s.declarators text access start).map (·.profile), .code)
  | .fileHeader => some ([], if s.length == 1 && s.isWord 0 "end" then .code else .fileHeader)
  | .member closing => some ([], if Outline.isEnd s closing then .code else .member closing)
  | .record => some ([], if Outline.isEnd s "type" then .code else .record)
  | .enumeration type =>
    if Outline.isEnd s "enum" then some ([], .code)
    else some ((s.enumeratorProfile? type).toList, .enumeration type)

/-- What statements declare one after another, and in what the next one stands. -/
def declareAll (text : Text) (level : Level) : List Statement → Option (List Profile × Level)
  | [] => some ([], level)
  | s :: rest =>
    match s.declares text level with
    | none => none
    | some (found, level) =>
      (declareAll text level rest).map fun (more, level) => (found ++ more, level)

theorem exists_cover? {s : Statement} (h : s ≠ []) : ∃ span, s.cover? = some span := by
  cases s with
  | nil => exact absurd rfl h
  | cons t s =>
    rw [cover?, head?_cons, getLast?_cons]
    exact ⟨_, rfl⟩

end Statement

namespace Outline

def Construct.level : Construct → Level
  | .code => .code
  | .fileHeader => .fileHeader
  | .member opened => .member opened.closing
  | .record _ => .record
  | .enumeration type => .enumeration type

/-- What an entry says. -/
def Entry.profile (e : Entry) : Profile :=
  { name := e.name.name, kind := e.kind, access := e.access, type? := e.type?
    isWithEvents := e.isWithEvents, isArray := e.isArray }

/-- What is declared at the level of the module, with its numbers and where the names stand. -/
def members (o : Outline) : List (DeclarationId × Span × Profile) :=
  (o.declarations.filter (·.parent? = some o.base)).map fun d => (d.id, d.selection.span, d.profile)

/-- What is declared at the level of the module. -/
def profiles (o : Outline) : List Profile := o.members.map (·.2.2)

/-- The construct is not the module itself. -/
def Construct.Apart (base : DeclarationId) : Construct → Prop
  | .member opened => opened.declaration ≠ base
  | .record opened => opened.declaration ≠ base
  | _ => True

section

variable (o : Outline)

theorem members_addDeclaration (e : Entry) :
    (o.addDeclaration e).members =
      o.members ++ if e.parent = o.base then [(o.nextId, e.name.span, e.profile)] else [] := by
  simp only [members, addDeclaration, filter_append, map_append]
  congr 1
  by_cases hparent : e.parent = o.base
  · simp [hparent, Declaration.profile, Entry.profile, Text.extent]
  · simp [hparent]

theorem profiles_addDeclaration (e : Entry) :
    (o.addDeclaration e).profiles = o.profiles ++ if e.parent = o.base then [e.profile] else [] := by
  rw [profiles, members_addDeclaration, map_append]
  split <;> rfl

theorem profiles_addConstants (scope : DeclarationId) (access : Access) (s : Statement) :
    (o.addConstants scope access s).profiles = o.profiles ++
      if scope = o.base then
        (s.splitAtCommas 0).filterMap (constantProfile? o.source.text access)
      else [] := by
  rw [addConstants]
  generalize s.splitAtCommas 0 = pieces
  induction pieces generalizing o with
  | nil => simp
  | cons piece pieces ih =>
    rw [foldl_cons]
    cases hfound : piece.namedType? o.source.text with
    | none =>
      simp only [ih]
      rw [filterMap_cons_none]
      rw [constantProfile?, hfound]
      rfl
    | some found =>
      let e : Entry := {
        name := found.name, kind := .constant, parent := scope, access, type? := found.type?
        extent := piece.cover?.getD found.name.span }
      have hprofile : constantProfile? o.source.text access piece = some e.profile := by
        rw [constantProfile?, hfound]
        rfl
      refine (ih (o.addDeclaration e)).trans ?_
      rw [profiles_addDeclaration, append_assoc, filterMap_cons_some hprofile]
      congr 1
      have hbase : (o.addDeclaration e).base = o.base := rfl
      have hscope : e.parent = scope := rfl
      rw [hbase, hscope]
      split <;> rfl

theorem members_addLocals (hmember : member ≠ o.base) (s : Statement) :
    (o.addLocals member s).members = o.members := by
  rw [addLocals]
  generalize s.splitAtCommas 0 = pieces
  induction pieces generalizing o with
  | nil => rfl
  | cons piece pieces ih =>
    rw [foldl_cons]
    cases piece.namedType? o.source.text with
    | none => exact ih o hmember
    | some found =>
      refine (ih (o.addDeclaration _) hmember).trans ?_
      rw [members_addDeclaration]
      simp [if_neg hmember]

theorem profiles_addLocalStatement (hmember : member ≠ o.base) (s : Statement) :
    (o.addLocalStatement member s).profiles = o.profiles := by
  rw [addLocalStatement]
  split
  · rw [profiles, members_addLocals o hmember]
    rfl
  · split
    · rw [profiles_addConstants, if_neg hmember, append_nil]
    · rfl

/-- The variables of a field statement get one number after another. -/
theorem addDeclaredFields_eq (access : Access) (withEvents : Bool) (pieces : List Statement) :
    (o.addDeclaredFields access withEvents pieces).2 =
      ((pieces.filterMap (declarator? o.source.text access withEvents)).zipIdx o.nextId).map
        (fun (d, id) => ⟨id, d.span, d.bounds?⟩) ∧
    (o.addDeclaredFields access withEvents pieces).1.members = o.members ++
      ((pieces.filterMap (declarator? o.source.text access withEvents)).zipIdx o.nextId).map
        (fun (d, id) => (id, d.selection, d.profile)) := by
  induction pieces generalizing o with
  | nil => simp [addDeclaredFields]
  | cons piece pieces ih =>
    rw [addDeclaredFields]
    split
    · rename_i found span hfound hspan
      have hdeclarator : declarator? o.source.text access withEvents piece = some {
          profile := {
            name := found.name.name, kind := .variable, access, type? := found.type?
            isWithEvents := withEvents || piece.isWord 0 "withevents"
            isArray := found.bounds?.isSome }
          selection := found.name.span
          span
          bounds? := found.bounds?.map o.source.text.slice } := by
        rw [declarator?, hfound, hspan]
      let e : Entry := {
        name := found.name, kind := .variable, parent := o.base, access, type? := found.type?
        isWithEvents := withEvents || piece.isWord 0 "withevents", isArray := found.bounds?.isSome
        extent := span }
      obtain ⟨hfields, hmembers⟩ := ih (o.addDeclaration e)
      rw [nextId_addDeclaration] at hfields hmembers
      rw [filterMap_cons_some hdeclarator, zipIdx_cons, map_cons, map_cons]
      refine ⟨congrArg _ hfields, hmembers.trans ?_⟩
      rw [members_addDeclaration, if_pos rfl, append_assoc]
      rfl
    · rename_i hnone
      have hdeclarator : declarator? o.source.text access withEvents piece = none := by
        rw [declarator?]
        split
        · rename_i hfound hspan
          exact absurd hspan (hnone _ _ hfound)
        · rfl
      rw [filterMap_cons_none hdeclarator]
      exact ih o

theorem addFields_of_lt {access : Access} {s : Statement} {i : Nat} {span : Span}
    (hspan : s.cover? = some span) (hlt : s.variablesAt i < s.length) :
    o.addFields access s i =
      let declared := o.addDeclaredFields access (s.isWord i "withevents")
        (splitAtCommas 0 (s.drop (s.variablesAt i)))
      declared.1.addItem (.fields ⟨declared.1.source.text.extent span,
        (cover? (s.take (s.variablesAt i))).getD (.empty span.start), declared.2⟩) := by
  rw [addFields, hspan]
  exact if_pos hlt

theorem addFields_of_ge {access : Access} {s : Statement} {i : Nat}
    (hge : ¬s.variablesAt i < s.length) : o.addFields access s i = o := by
  rw [addFields]
  cases s.cover? with
  | none => rfl
  | some span => exact if_neg hge

theorem members_addFields (access : Access) (s : Statement) (i : Nat) :
    (o.addFields access s i).members = o.members ++
      ((s.declarators o.source.text access i).zipIdx o.nextId).map
        (fun (d, id) => (id, d.selection, d.profile)) := by
  rw [declarators]
  by_cases hlt : s.variablesAt i < s.length
  · obtain ⟨span, hspan⟩ := exists_cover? (s := s) (by rintro rfl; cases hlt)
    rw [addFields_of_lt o hspan hlt, if_pos hlt]
    exact (addDeclaredFields_eq o access _ _).2
  · rw [addFields_of_ge o hlt, if_neg hlt, zipIdx_nil, map_nil, append_nil]

theorem profiles_addFields (access : Access) (s : Statement) (i : Nat) :
    (o.addFields access s i).profiles =
      o.profiles ++ (s.declarators o.source.text access i).map (·.profile) := by
  rw [profiles, members_addFields, map_append, map_map, profiles]
  congr 1
  have hfst : ((·.2.2) ∘ fun (x : Declarator × Nat) => (x.2, x.1.selection, x.1.profile)) =
      (fun d : Declarator => d.profile) ∘ Prod.fst := rfl
  rw [hfst, ← map_map, zipIdx_map_fst]

theorem members_endMember (opened : UnclosedMember) (s : Statement) :
    (o.endMember opened s).members = o.members := by
  let f (d : Declaration) : Declaration :=
    if d.id = opened.declaration then
      { d with extent := o.source.text.extent ⟨opened.signature.span.start, endOf s⟩ }
    else d
  have hparent : (fun d : Declaration => decide (d.parent? = some o.base)) ∘ f =
      fun d => decide (d.parent? = some o.base) := by
    funext d
    simp only [Function.comp_apply, f]
    split <;> rfl
  have hprofile : (fun d : Declaration => (d.id, d.selection.span, d.profile)) ∘ f =
      fun d => (d.id, d.selection.span, d.profile) := by
    funext d
    simp only [Function.comp_apply, f]
    split <;> rfl
  calc (o.endMember opened s).members
      = ((o.declarations.map f).filter (fun d => decide (d.parent? = some o.base))).map
          (fun d => (d.id, d.selection.span, d.profile)) := rfl
    _ = o.members := by rw [filter_map, hparent, map_map, hprofile, members]

end

/-- What a step leads to, as far as the module level goes. -/
def outlook (result : Outline × Construct) : List Profile × Level :=
  (result.1.profiles, result.2.level)

section

variable {o : Outline} {s : Statement}

theorem outlook_codeStatement :
    (o.codeStatement s).toOption.map outlook =
      (s.declares o.source.text .code).map fun found => (o.profiles ++ found.1, found.2) := by
  rw [codeStatement, declares]
  cases ModuleStatement.ofStatement s with
  | ignored | fileHeader => simp [outlook, Except.toOption, Construct.level]
  | implements =>
    simp only [Option.map_some, append_nil]
    split <;> rfl
  | procedure kind access nameAt closing =>
    simp only [memberProfile?]
    cases s.signature o.source.text nameAt with
    | error what => rfl
    | ok signature =>
      simp only [Except.toOption, Option.map_some, outlook, addMember, profiles_addDeclaration]
      rfl
  | bodyless kind access nameAt =>
    simp only [memberProfile?]
    cases s.signature o.source.text nameAt with
    | error what => rfl
    | ok signature =>
      simp only [Except.toOption, Option.map_some, outlook]
      refine congrArg (fun l => some (l, Level.code)) ((profiles_addDeclaration o _).trans ?_)
      rw [if_pos rfl]
      rfl
  | unknownAccessor => rfl
  | record access nameAt =>
    simp only [blockProfile?]
    cases s[nameAt]? with
    | none => rfl
    | some name =>
      simp only [Except.toOption, Option.map_some, outlook, addBlock, profiles_addDeclaration]
      rfl
  | enumeration access nameAt =>
    simp only [blockProfile?]
    cases s[nameAt]? with
    | none => rfl
    | some name =>
      simp only [Except.toOption, Option.map_some, outlook, addBlock, profiles_addDeclaration]
      rfl
  | constants access start =>
    simp only [Except.toOption, Option.map_some, outlook, profiles_addConstants, if_true]
    rfl
  | fields access start =>
    simp only [Except.toOption, Option.map_some, outlook, profiles_addFields]
    rfl

theorem outlook_recordStatement {opened : UnclosedRecord} (hopened : opened.declaration ≠ o.base) :
    outlook (o.recordStatement opened s) =
      (o.profiles, if isEnd s "type" then .code else .record) := by
  rw [recordStatement]
  split
  · rfl
  · split
    · simp only [outlook, profiles_addDeclaration, if_neg hopened, append_nil]
      rfl
    · rfl

theorem outlook_enumerationStatement (type : Text) :
    outlook (o.enumerationStatement type s) =
      if isEnd s "enum" then (o.profiles, .code)
      else (o.profiles ++ (s.enumeratorProfile? type).toList, .enumeration type) := by
  rw [enumerationStatement]
  split
  · rfl
  cases s with
  | nil => simp [outlook, enumeratorProfile?, Construct.level]
  | cons name rest =>
    simp only [head?_cons, enumeratorProfile?]
    by_cases hname : name.kind = .identifier
    · simp only [hname, if_true, Option.filter_some, decide_true, Option.map_some, outlook,
        profiles_addDeclaration]
      rfl
    · simp [hname, outlook, Construct.level]

/-- What reading a statement adds at module level is what the statement declares there. -/
theorem outlook_step (hblock : block.Apart o.base) :
    (o.step block s).toOption.map outlook =
      (s.declares o.source.text block.level).map fun found => (o.profiles ++ found.1, found.2) := by
  cases block with
  | code => exact outlook_codeStatement
  | fileHeader =>
    simp only [step, Construct.level, Statement.declares, Except.toOption, Option.map_some,
      append_nil]
    by_cases hend : (s.length == 1 && s.isWord 0 "end") = true
    · rw [if_pos hend, if_pos hend]
      rfl
    · rw [if_neg hend, if_neg hend]
      rfl
  | member opened =>
    simp only [step, Construct.level, declares, Option.map_some, append_nil]
    split
    · simp only [Except.toOption, Option.map_some, outlook, profiles, members_endMember]
      rfl
    · refine congrArg (fun l => some (l, Level.member opened.closing)) ?_
      exact profiles_addLocalStatement o hblock s
  | record opened =>
    simp only [step, Construct.level, Statement.declares, Except.toOption, Option.map_some,
      outlook_recordStatement hblock, append_nil]
  | enumeration type =>
    simp only [step, Construct.level, Statement.declares, Except.toOption, Option.map_some,
      outlook_enumerationStatement]
    split <;> simp

end

section

variable {o : Outline} {s : Statement}

/-- A member or a record that a statement opens is declared by it. -/
theorem apart_step (hclosed : o.Closed) (hblock : block.Apart o.base)
    (hstep : o.step block s = .ok (o', block')) : block'.Apart o.base := by
  have hnext : o.nextId ≠ o.base := Nat.ne_of_gt hclosed.has_base.2
  cases effect_of_step hstep with
  | names _ hblock' _ => cases block' <;> trivial
  | openMember | openRecord => exact hnext
  | keep => exact hblock
  | line _ hsame _ =>
    rw [Construct.Apart, hsame]
    exact hblock
  | implements | fields | bodyless | closeMember | closeRecord => trivial

/-- Nothing that was declared at module level gets lost. -/
theorem members_prefix_declare (o : Outline) (entries : List Entry) :
    o.members <+: (o.declare entries).members := by
  induction entries generalizing o with
  | nil => exact prefix_refl _
  | cons e entries ih =>
    have hfirst : o.members <+: (o.addDeclaration e).members := ⟨_, (members_addDeclaration o e).symm⟩
    exact hfirst.trans (ih _)

theorem members_prefix_step (hstep : o.step block s = .ok (o', block')) : o.members <+: o'.members := by
  cases effect_of_step hstep with
  | names | fields | keep | line => exact members_prefix_declare o _
  | bodyless | openMember | openRecord => exact members_prefix_declare o [_]
  | closeMember => exact members_endMember o _ s ▸ prefix_refl _
  | implements | closeRecord => exact prefix_refl _

theorem members_prefix_steps (h : o.steps block rest = .ok (o', block')) :
    o.members <+: o'.members :=
  keeps_of_steps (P := fun _ o' _ => o.members <+: o'.members)
    (fun hkept hstep => hkept.trans (members_prefix_step hstep)) (prefix_refl _) h

end

/-- Some statements of a source have been read. -/
structure Reading (statements : List Statement) (source : Source) (base : DeclarationId)
    (o : Outline) (block : Construct) : Prop where
  readFrom : ReadFrom statements source base o
  opened : block.OpenedBy source.text statements
  closed : o.Closed
  within : block.Within o
  apart : block.Apart base

namespace Reading

variable {statements : List Statement} {source : Source} {base : DeclarationId} {o : Outline}
  {s : Statement}

theorem start (statements : List Statement) (source : Source) (base : DeclarationId) :
    Reading statements source base (.start base source) .code :=
  ⟨.start _ _ _, trivial, .start _ _, trivial, trivial⟩

section

variable (h : Reading statements source base o block)

include h

theorem step (hs : s ∈ statements) (hstep : o.step block s = .ok (o', block')) :
    Reading statements source base o' block' := by
  obtain ⟨hread, hopened⟩ := h.readFrom.step h.opened hs hstep
  obtain ⟨hclosed, hwithin⟩ := h.closed.step h.within hstep
  have hbase := h.readFrom.ofBase
  refine ⟨hread, hopened, hclosed, hwithin, ?_⟩
  rw [← hbase]
  exact apart_step h.closed (by rw [hbase]; exact h.apart) hstep

theorem steps (hrest : ∀ s ∈ rest, s ∈ statements) (hsteps : o.steps block rest = .ok (o', block')) :
    Reading statements source base o' block' := by
  refine (keeps_of_steps (P := fun rest o block => (∀ s ∈ rest, s ∈ statements) ∧
    Reading statements source base o block) ?_ ⟨hrest, h⟩ hsteps).2
  rintro s rest o block o' block' ⟨hrest, h⟩ hstep
  obtain ⟨hs, hrest⟩ := forall_mem_cons.mp hrest
  exact ⟨hrest, h.step hs hstep⟩

/-- What reading statements adds at module level is what the statements declare there. -/
theorem outlook_steps (hrest : ∀ s ∈ rest, s ∈ statements) :
    (o.steps block rest).toOption.map outlook =
      (declareAll source.text block.level rest).map
        fun found => (o.profiles ++ found.1, found.2) := by
  induction rest generalizing o block with
  | nil =>
    rw [declareAll, Option.map_some, append_nil]
    rfl
  | cons s rest ih =>
    obtain ⟨hs, hrest⟩ := forall_mem_cons.mp hrest
    have hblock := h.apart
    rw [← h.readFrom.ofBase] at hblock
    have hlook := outlook_step (s := s) hblock
    rw [h.readFrom.ofSource] at hlook
    rw [Outline.steps, declareAll]
    cases hstep : o.step block s with
    | error fault =>
      rw [hstep] at hlook
      rw [Option.map_eq_none_iff.mp hlook.symm]
      rfl
    | ok next =>
      obtain ⟨o', block'⟩ := next
      rw [hstep] at hlook
      obtain ⟨⟨found, level⟩, hfound, heq⟩ := Option.map_eq_some_iff.mp hlook.symm
      simp only [outlook, Prod.mk.injEq] at heq
      obtain ⟨hprofiles, rfl⟩ := heq
      simp only [hfound, ih (h.step hs hstep) hrest, Option.map_map, ← hprofiles]
      congr 1
      funext more
      simp [append_assoc]

end

end Reading

theorem mayEnd_level (block : Construct) : block.level.mayEnd = block.closing?.isNone := by
  cases block <;> rfl

/-- A module can be read if what its statements declare can, and then it declares this. -/
theorem profiles_read (base : DeclarationId) (source : Source) :
    (read base source).toOption.map profiles =
      ((declareAll source.text .code (ofTokens (tokenize source.text))).filter
        (·.2.mayEnd)).map Prod.fst := by
  have hlook := (Reading.start (ofTokens (tokenize source.text)) source base).outlook_steps
    (fun _ hs => hs)
  have hid : (fun found : List Profile × Level =>
      ((Outline.start base source).profiles ++ found.1, found.2)) = id := rfl
  rw [hid, Option.map_id, id_eq] at hlook
  rw [Construct.level] at hlook
  rw [← hlook, read]
  cases (Outline.start base source).steps .code (ofTokens (tokenize source.text)) with
  | error fault => rfl
  | ok next =>
    obtain ⟨o, block⟩ := next
    simp only [Except.toOption, Option.map_some, outlook, Option.filter_some, mayEnd_level]
    cases block.closing? <;> rfl

end Outline

end VbaRefactor
