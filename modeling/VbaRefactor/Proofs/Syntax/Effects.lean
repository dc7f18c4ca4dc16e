import VbaRefactor.Syntax.Outline

/-!
# What a statement does to an outline

Reading a statement declares something, adds an item, or opens or closes a construct. `Effect` lists
all that can happen, so that what a whole reading keeps is seen case by case from it.
-/

namespace VbaRefactor

open List

/-- The members that have a body. -/
def DeclarationKind.hasBody : DeclarationKind → Bool
  | .procedure | .function | .propertyGet | .propertyLet | .propertySet => true
  | _ => false

namespace ModuleStatement

/-- A member with a body is begun as such, and one without as such. -/
def Fits : ModuleStatement → Bool
  | .procedure kind _ _ _ => kind.isMember && kind.hasBody
  | .bodyless kind _ _ => kind.isMember && !kind.hasBody
  | _ => true

theorem fits_afterModifiers (access? : Option Access) (s : Statement) (i : Nat) :
    (afterModifiers access? s i).Fits = true := by
  simp only [afterModifiers]
  repeat' split
  all_goals rfl

theorem fits_ofStatement (s : Statement) : (ofStatement s).Fits = true := by
  simp only [ofStatement]
  split
  · rfl
  · split
    · rfl
    · split
      · rfl
      · exact fits_afterModifiers _ _ _

variable {access : Access} {kind : DeclarationKind} {nameAt : Nat} {s : Statement}

theorem of_procedure {closing : Text} (h : ofStatement s = .procedure kind access nameAt closing) :
    kind.isMember = true ∧ kind.hasBody = true := by
  have hfits := fits_ofStatement s
  rwa [h, Fits, Bool.and_eq_true] at hfits

theorem of_bodyless (h : ofStatement s = .bodyless kind access nameAt) :
    kind.isMember = true ∧ kind.hasBody = false := by
  have hfits := fits_ofStatement s
  rwa [h, Fits, Bool.and_eq_true, Bool.not_eq_true'] at hfits

end ModuleStatement

namespace Outline

/-- The outline with more declarations, one after another. -/
def declare (o : Outline) (entries : List Entry) : Outline := entries.foldl addDeclaration o

/-- Variables, constants and enumerations that stand in a declaration. -/
def Plain (parent : DeclarationId) (entries : List Entry) : Prop :=
  ∀ e ∈ entries, e.parent = parent ∧
    (e.kind = .variable ∨ e.kind = .constant ∨ e.kind = .enumeration)

/-- No member and no record is open in the construct. -/
def Construct.isClosed : Construct → Bool
  | .member _ | .record _ => false
  | _ => true

/-- What reading a statement in a construct can make of an outline and the construct. -/
inductive Effect (o : Outline) (s : Statement) : Construct → Outline → Construct → Prop
  /-- It declares names of the module, or nothing at all. -/
  | names {block block' : Construct} {entries : List Entry} : block.isClosed = true →
    block'.isClosed = true → Plain o.base entries → Effect o s block (o.declare entries) block'
  | implements {interface : Text} {extent : Extent} : s.cover? = some extent.span →
    Effect o s .code
      { o.addItem (.implements interface extent) with interfaces := o.interfaces ++ [interface] } .code
  | fields {entries : List Entry} {statement : FieldStatement} : Plain o.base entries →
    s.cover? = some statement.extent.span →
    Effect o s .code ((o.declare entries).addItem (.fields statement)) .code
  | bodyless {kind : DeclarationKind} {access : Access} {nameAt : Nat}
    {signature : Statement.Signature} : kind.isMember = true → kind.hasBody = false →
    s.signature o.source.text nameAt = .ok signature →
    Effect o s .code ((o.addMember kind access s signature).addItem (.member {
      declaration := o.nextId, kind, extent := o.statementExtent s signature.name
      signature := o.statementExtent s signature.name, list? := signature.list?, body? := none })) .code
  | openMember {kind : DeclarationKind} {access : Access} {nameAt : Nat} {closing : Text}
    {signature : Statement.Signature} : kind.isMember = true → kind.hasBody = true →
    s.signature o.source.text nameAt = .ok signature →
    Effect o s .code (o.addMember kind access s signature) (.member {
      declaration := o.nextId, kind, signature := o.statementExtent s signature.name
      list? := signature.list?, closing })
  | openRecord {access : Access} {name : Token} : name ∈ s →
    Effect o s .code (o.addBlock .record access s name) (.record {
      declaration := o.nextId, start := (s.head?.map Token.start).getD name.start, members := [] })
  /-- It is kept for the member, whose names it may declare. -/
  | keep {opened : UnclosedMember} {entries : List Entry} : Plain opened.declaration entries →
    Effect o s (.member opened)
      { o.declare entries with bodies := (o.declare entries).bodies ++ [⟨opened.declaration, s⟩] }
      (.member opened)
  | closeMember {opened : UnclosedMember} : Effect o s (.member opened) (o.endMember opened s) .code
  /-- It declares a member of the record, or nothing at all. -/
  | line {opened opened' : UnclosedRecord} {entries : List Entry} :
    (∀ e ∈ entries, e.parent = opened.declaration ∧ e.kind = .recordMember) →
    opened'.declaration = opened.declaration → opened'.start = opened.start →
    Effect o s (.record opened) (o.declare entries) (.record opened')
  | closeRecord {opened : UnclosedRecord} {block : RecordBlock} :
    block.extent.span = ⟨opened.start, endOf s⟩ →
    Effect o s (.record opened) (o.addItem (.record block)) .code

section

variable {o o' : Outline} {block block' : Construct} {s : Statement} {rest : List Statement}
  {P : List Statement → Outline → Construct → Prop} {base : DeclarationId} {source : Source}

/-! ## Declaring one after another -/

/-- Declaring things leaves all the rest alone. -/
theorem declare_of_step {β : Type} (view : Outline → β)
    (h : ∀ o e, view (addDeclaration o e) = view o) (o : Outline) (entries : List Entry) :
    view (o.declare entries) = view o := by
  induction entries generalizing o with
  | nil => rfl
  | cons e entries ih => exact (ih (o.addDeclaration e)).trans (h o e)

@[simp]
theorem source_declare (o : Outline) (entries : List Entry) : (o.declare entries).source = o.source :=
  declare_of_step source (fun _ _ => rfl) o entries

@[simp]
theorem base_declare (o : Outline) (entries : List Entry) : (o.declare entries).base = o.base :=
  declare_of_step base (fun _ _ => rfl) o entries

@[simp]
theorem items_declare (o : Outline) (entries : List Entry) : (o.declare entries).items = o.items :=
  declare_of_step items (fun _ _ => rfl) o entries

@[simp]
theorem bodies_declare (o : Outline) (entries : List Entry) : (o.declare entries).bodies = o.bodies :=
  declare_of_step bodies (fun _ _ => rfl) o entries

@[simp]
theorem nextId_addDeclaration (o : Outline) (e : Entry) : (o.addDeclaration e).nextId = o.nextId + 1 := by
  rw [nextId, nextId, addDeclaration, length_append]
  rfl

theorem exists_declare_foldl {α : Type} {P : Entry → Prop} {f : Outline → α → Outline}
    (hf : ∀ o x, f o x = o ∨ ∃ e, P e ∧ f o x = o.addDeclaration e) (o : Outline) (xs : List α) :
    ∃ entries, (∀ e ∈ entries, P e) ∧ xs.foldl f o = o.declare entries := by
  induction xs generalizing o with
  | nil => exact ⟨[], forall_mem_nil _, rfl⟩
  | cons x xs ih =>
    rw [foldl_cons]
    rcases hf o x with hsame | ⟨e, he, hadded⟩
    · rw [hsame]
      exact ih o
    · obtain ⟨entries, hall, heq⟩ := ih (o.addDeclaration e)
      rw [hadded]
      exact ⟨e :: entries, forall_mem_cons.mpr ⟨he, hall⟩, heq⟩

theorem exists_declare_addConstants (o : Outline) (scope : DeclarationId) (access : Access)
    (s : Statement) : ∃ entries, Plain scope entries ∧ o.addConstants scope access s = o.declare entries := by
  refine exists_declare_foldl ?_ o _
  intro o piece
  split
  · exact .inl rfl
  · exact .inr ⟨_, ⟨rfl, .inr (.inl rfl)⟩, rfl⟩

theorem exists_declare_addLocalStatement (o : Outline) (member : DeclarationId) (s : Statement) :
    ∃ entries, Plain member entries ∧ o.addLocalStatement member s = o.declare entries := by
  rw [addLocalStatement]
  split
  · refine exists_declare_foldl ?_ o _
    intro o piece
    split
    · exact .inl rfl
    · exact .inr ⟨_, ⟨rfl, .inl rfl⟩, rfl⟩
  · split
    · exact exists_declare_addConstants o _ _ _
    · exact ⟨[], forall_mem_nil _, rfl⟩

theorem exists_declare_addDeclaredFields (o : Outline) (access : Access) (withEvents : Bool)
    (pieces : List Statement) : ∃ entries, Plain o.base entries ∧
      (o.addDeclaredFields access withEvents pieces).1 = o.declare entries := by
  induction pieces generalizing o with
  | nil => exact ⟨[], forall_mem_nil _, rfl⟩
  | cons piece pieces ih =>
    rw [addDeclaredFields]
    split
    · rename_i found span _ _
      obtain ⟨entries, hplain, heq⟩ := ih (o.addDeclaration {
        name := found.name, kind := .variable, parent := o.base, access, type? := found.type?
        isWithEvents := withEvents || piece.isWord 0 "withevents", isArray := found.bounds?.isSome
        extent := span })
      exact ⟨_ :: entries, forall_mem_cons.mpr ⟨⟨rfl, .inl rfl⟩, hplain⟩, heq⟩
    · exact ih o

/-! ## One statement -/

theorem Effect.name {e : Entry} (hblock : block.isClosed = true) (hblock' : block'.isClosed = true)
    (hparent : e.parent = o.base) (hkind : e.kind = .constant ∨ e.kind = .enumeration) :
    Effect o s block (o.addDeclaration e) block' := by
  have hplain : Plain o.base [e] := forall_mem_singleton.mpr ⟨hparent, .inr hkind⟩
  exact .names hblock hblock' hplain

theorem effect_addFields (o : Outline) (access : Access) (s : Statement) (i : Nat) :
    Effect o s .code (o.addFields access s i) .code := by
  have hnothing : Effect o s .code o .code := .names rfl rfl (forall_mem_nil _)
  simp only [addFields]
  cases hspan : s.cover? with
  | none => exact hnothing
  | some span =>
    dsimp only
    generalize (if s.isWord i "withevents" = true then i + 1 else i) = first
    split
    · obtain ⟨entries, hplain, heq⟩ := exists_declare_addDeclaredFields o access
        (s.isWord i "withevents") (Statement.splitAtCommas 0 (s.drop first))
      rw [heq]
      exact .fields hplain hspan
    · exact hnothing

theorem effect_of_codeStatement (h : o.codeStatement s = .ok (o', block')) :
    Effect o s .code o' block' := by
  have hnothing {block' : Construct} (hblock : block'.isClosed = true) : Effect o s .code o block' :=
    .names rfl hblock (forall_mem_nil _)
  rw [codeStatement] at h
  split at h
  · cases h
    exact hnothing rfl
  · cases h
    exact hnothing rfl
  · split at h
    · rename_i hspan
      cases h
      exact .implements hspan
    · cases h
      exact hnothing rfl
  · rename_i hkind
    obtain ⟨hmember, hbody⟩ := ModuleStatement.of_procedure hkind
    split at h
    · cases h
    · rename_i hsignature
      cases h
      exact .openMember hmember hbody hsignature
  · rename_i hkind
    obtain ⟨hmember, hbody⟩ := ModuleStatement.of_bodyless hkind
    split at h
    · cases h
    · rename_i hsignature
      cases h
      exact .bodyless hmember hbody hsignature
  · cases h
  · split at h
    · cases h
    · rename_i name hname
      cases h
      exact .openRecord (mem_of_getElem? hname)
  · split at h
    · cases h
    · cases h
      exact .name rfl rfl rfl (.inr rfl)
  · cases h
    obtain ⟨entries, hplain, heq⟩ := exists_declare_addConstants o o.base _ _
    rw [heq]
    exact .names rfl rfl hplain
  · cases h
    exact effect_addFields o _ s _

theorem effect_recordStatement (o : Outline) (opened : UnclosedRecord) (s : Statement) :
    Effect o s (.record opened) (o.recordStatement opened s).1 (o.recordStatement opened s).2 := by
  rw [recordStatement]
  split
  · exact .closeRecord rfl
  split
  · rename_i found span _ _
    let e : Entry := {
      name := found.name, kind := .recordMember, parent := opened.declaration, access := .public
      type? := found.type?, isArray := found.bounds?.isSome, extent := span }
    have hline : ∀ x ∈ [e], x.parent = opened.declaration ∧ x.kind = .recordMember :=
      forall_mem_singleton.mpr ⟨rfl, rfl⟩
    exact .line hline rfl rfl
  · exact .line (forall_mem_nil _) rfl rfl

theorem effect_enumerationStatement (o : Outline) (type : Text) (s : Statement) :
    Effect o s (.enumeration type) (o.enumerationStatement type s).1
      (o.enumerationStatement type s).2 := by
  rw [enumerationStatement]
  split
  · exact .names rfl rfl (forall_mem_nil _)
  · split
    · split
      · exact .name rfl rfl rfl (.inl rfl)
      · exact .names rfl rfl (forall_mem_nil _)
    · exact .names rfl rfl (forall_mem_nil _)

/-- Whatever a statement does is one of the effects. -/
theorem effect_of_step (h : o.step block s = .ok (o', block')) : Effect o s block o' block' := by
  cases block with
  | code => exact effect_of_codeStatement h
  | fileHeader =>
    cases h
    refine .names rfl ?_ (forall_mem_nil _)
    split <;> rfl
  | member opened =>
    rw [step] at h
    split at h
    · cases h
      exact .closeMember
    · cases h
      obtain ⟨entries, hplain, heq⟩ := exists_declare_addLocalStatement o opened.declaration s
      rw [heq]
      exact .keep hplain
  | record opened =>
    have hrecord := effect_recordStatement o opened s
    rw [step, Except.ok.injEq] at h
    rwa [h] at hrecord
  | enumeration type =>
    have henumeration := effect_enumerationStatement o type s
    rw [step, Except.ok.injEq] at h
    rwa [h] at henumeration

/-- A statement is kept for a member if it stands in one and does not close it. -/
theorem bodies_step (h : o.step block s = .ok (o', block')) :
    o'.bodies = o.bodies ∨ ∃ opened, block = .member opened ∧ isEnd s opened.closing = false ∧
      o'.bodies = o.bodies ++ [⟨opened.declaration, s⟩] := by
  cases effect_of_step h with
  | names | fields | line => exact .inl (bodies_declare o _)
  | @keep opened =>
    refine .inr ⟨opened, rfl, ?_, congrArg (· ++ _) (bodies_declare o _)⟩
    cases hend : isEnd s opened.closing with
    | false => rfl
    | true => simp [step, hend] at h
  | implements | bodyless | openMember | openRecord | closeMember | closeRecord => exact .inl rfl

/-! ## A run of statements -/

/-- What every statement keeps, a run of them keeps. -/
theorem keeps_of_steps (hstep : ∀ {s rest o block o' block'}, P (s :: rest) o block →
      o.step block s = .ok (o', block') → P rest o' block') (hstart : P rest o block)
    (h : o.steps block rest = .ok (o', block')) : P [] o' block' := by
  induction rest generalizing o block with
  | nil =>
    cases h
    exact hstart
  | cons s rest ih =>
    rw [steps] at h
    split at h
    · cases h
    · rename_i hnext
      exact ih (hstep hstart hnext) h

/-- What holds after a run of statements but not before it is brought about by one of them. -/
theorem exists_step_of_steps {P : Outline → Construct → Prop}
    (h : o.steps block rest = .ok (o', block')) (hlast : P o' block') :
    P o block ∨ ∃ before s after o₁ block₁ o₂ block₂, rest = before ++ s :: after ∧
      o.steps block before = .ok (o₁, block₁) ∧ o₁.step block₁ s = .ok (o₂, block₂) ∧
      ¬P o₁ block₁ ∧ P o₂ block₂ ∧ o₂.steps block₂ after = .ok (o', block') := by
  induction rest generalizing o block with
  | nil =>
    cases h
    exact .inl hlast
  | cons s rest ih =>
    rw [steps] at h
    split at h
    · cases h
    rename_i o₁ block₁ hstep
    rcases ih h with hnext | ⟨before, s', after, o₂, block₂, o₃, block₃, rfl, hbefore, hlater⟩
    · by_cases hfirst : P o block
      · exact .inl hfirst
      · exact .inr ⟨[], s, rest, o, block, o₁, block₁, rfl, rfl, hstep, hfirst, hnext, h⟩
    · refine .inr ⟨s :: before, s', after, o₂, block₂, o₃, block₃, rfl, ?_, hlater⟩
      rw [steps, hstep]
      exact hbefore

theorem steps_of_read (h : read base source = .ok o) :
    ∃ block, block.isClosed = true ∧
      (start base source).steps .code (Statement.ofTokens (tokenize source.text)) = .ok (o, block) := by
  rw [read] at h
  split at h
  · cases h
  · rename_i block hsteps
    split at h
    · cases h
    · rename_i hclosing
      cases h
      refine ⟨block, ?_, hsteps⟩
      cases block <;> first | rfl | cases hclosing

/-- What every statement keeps holds of an outline that was read, where no construct is open. -/
theorem keeps_of_read (hstep : ∀ {s rest o block o' block'}, P (s :: rest) o block →
      o.step block s = .ok (o', block') → P rest o' block')
    (hstart : P (Statement.ofTokens (tokenize source.text)) (start base source) .code)
    (h : read base source = .ok o) : ∃ block, block.isClosed = true ∧ P [] o block := by
  obtain ⟨block, hclosed, hsteps⟩ := steps_of_read h
  exact ⟨block, hclosed, keeps_of_steps hstep hstart hsteps⟩

end

end Outline

end VbaRefactor
