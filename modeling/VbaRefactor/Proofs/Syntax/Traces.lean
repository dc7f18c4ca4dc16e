import VbaRefactor.Proofs.Syntax.Locating

/-!
# Where what an outline holds was read

The statements inside members and the field statements of an outline come from statements of the
source. `Level` says in what the reader was when it came to each of them.
-/

namespace VbaRefactor

open List Statement Lexer ModuleStatement Item

variable {access : Access} {kind : DeclarationKind} {statements : List Statement} {i nameAt : Nat}
  {s : Statement} {closing : Text}

/-- Members are closed by one of three words. -/
def Level.Standard : Level → Prop
  | .member closing => closing ∈ ["sub".toList, "function".toList, "property".toList]
  | _ => True

theorem ModuleStatement.standard_of_afterModifiers {access? : Option Access}
    (h : afterModifiers access? s i = .procedure kind access nameAt closing) :
    (Level.member closing).Standard := by
  simp only [afterModifiers] at h
  repeat' split at h
  all_goals cases h
  all_goals simp [Level.Standard]

namespace Statement

variable {text : Text} {level next : Level} {found : List Profile}

theorem standard_of_procedure
    (h : ofStatement s = .procedure kind access nameAt closing) :
    (Level.member closing).Standard := by
  rw [ofStatement] at h
  rcases ite_eq_iff.mp h with ⟨-, ⟨⟩⟩ | ⟨-, h⟩
  rcases ite_eq_iff.mp h with ⟨-, ⟨⟩⟩ | ⟨-, h⟩
  rcases ite_eq_iff.mp h with ⟨-, ⟨⟩⟩ | ⟨-, h⟩
  exact standard_of_afterModifiers h

theorem standard_of_declares (hlevel : level.Standard) (h : s.declares text level = some (found, next)) :
    next.Standard := by
  cases level with
  | code =>
    rw [declares] at h
    split at h
    case h_4 hprocedure =>
      obtain ⟨p, -, heq⟩ := Option.map_eq_some_iff.mp h
      cases heq
      exact standard_of_procedure hprocedure
    all_goals
      first
      | (cases h <;> exact trivial)
      | obtain ⟨p, -, heq⟩ := Option.map_eq_some_iff.mp h
        cases heq
        exact trivial
  | fileHeader | record =>
    cases h
    split <;> exact trivial
  | member closing =>
    cases h
    split
    · exact trivial
    · exact hlevel
  | enumeration type =>
    rw [declares] at h
    split at h <;> (cases h; exact trivial)

theorem standard_of_declareAll (hlevel : level.Standard)
    (h : declareAll text level statements = some (found, next)) : next.Standard := by
  induction statements generalizing level found with
  | nil =>
    cases h
    exact hlevel
  | cons s rest ih =>
    rw [declareAll] at h
    split at h
    · cases h
    · rename_i found' level' hs
      obtain ⟨more, hmore, heq⟩ := Option.map_eq_some_iff.mp h
      cases heq
      exact ih (standard_of_declares hlevel hs) hmore

end Statement

namespace Outline

variable {o o' : Outline} {block block' : Construct} {base : DeclarationId} {body : MemberStatement}
  {f : FieldStatement} {place : Nat × Nat} {rest : List Statement} {source : Source}

/-! ## What one statement adds -/

theorem fields_addItem (o : Outline) (item : Item) :
    (o.addItem item).items.filterMap fields? =
      o.items.filterMap fields? ++ item.fields?.toList := by
  rw [addItem, filterMap_append]
  cases hitem : item.fields? <;> simp [hitem]

theorem fields_codeStatement (h : o.codeStatement s = .ok (o', block')) :
    o'.items.filterMap fields? = o.items.filterMap fields? ∨
      ∃ access i, ofStatement s = .fields access i ∧
        s.variablesAt i < s.length ∧ o' = o.addFields access s i := by
  rw [codeStatement] at h
  split at h
  case h_3 =>
    split at h
    · cases h
      exact .inl ((fields_addItem o _).trans (append_nil _))
    · cases h
      exact .inl rfl
  case h_5 =>
    split at h
    · cases h
    · cases h
      exact .inl ((fields_addItem _ _).trans (append_nil _))
  case h_9 =>
    cases h
    obtain ⟨entries, -, heq⟩ := exists_declare_addConstants o o.base _ _
    rw [heq, items_declare]
    exact .inl rfl
  case h_10 access i hkind =>
    cases h
    by_cases hlt : s.variablesAt i < s.length
    · exact .inr ⟨access, i, hkind, hlt, rfl⟩
    · rw [addFields_of_ge o hlt]
      exact .inl rfl
  all_goals
    repeat' split at h
    all_goals (cases h <;> exact .inl rfl)

/-- A field statement is kept if it stands at module level and declares something. -/
theorem fields_step (h : o.step block s = .ok (o', block')) :
    o'.items.filterMap fields? = o.items.filterMap fields? ∨
      ∃ access i, block = .code ∧ ofStatement s = .fields access i ∧
        s.variablesAt i < s.length ∧ o' = o.addFields access s i := by
  by_cases hcode : block = .code
  · subst hcode
    rcases fields_codeStatement h with hsame | ⟨access, i, hkind, hlt, heq⟩
    · exact .inl hsame
    · exact .inr ⟨access, i, rfl, hkind, hlt, heq⟩
  · refine .inl ?_
    cases effect_of_step h with
    | names | keep | line => exact congrArg (List.filterMap fields?) (items_declare o _)
    | closeMember | closeRecord => exact (fields_addItem o _).trans (append_nil _)
    | implements | fields | bodyless | openMember | openRecord => exact absurd rfl hcode

/-! ## What a run of statements adds -/

theorem exists_of_mem_bodies (h : o.steps block rest = .ok (o', block')) (hbody : body ∈ o'.bodies) :
    body ∈ o.bodies ∨ ∃ before after o₁ opened, rest = before ++ body.tokens :: after ∧
      o.steps block before = .ok (o₁, .member opened) ∧
      isEnd body.tokens opened.closing = false := by
  rcases exists_step_of_steps (P := fun o _ => body ∈ o.bodies) h hbody with
    hfirst | ⟨before, s, after, o₁, block₁, o₂, block₂, rfl, hbefore, hstep, hnot, hmem, -⟩
  · exact .inl hfirst
  · rcases bodies_step hstep with hsame | ⟨opened, rfl, hend, hadded⟩
    · exact absurd (hsame ▸ hmem) hnot
    · rw [hadded] at hmem
      rcases mem_append.mp hmem with hold | hnew
      · exact absurd hold hnot
      · cases mem_singleton.mp hnew
        exact .inr ⟨before, after, o₁, opened, rfl, hbefore, hend⟩

/-- The field statement that a statement is, whose fields are numbered from `id`. -/
def fieldStatement (text : Text) (access : Access) (s : Statement) (i : Nat) (id : DeclarationId) :
    FieldStatement where
  extent := text.extent (s.cover?.getD default)
  keywords := (Statement.cover? (s.take (s.variablesAt i))).getD
    (.empty (s.cover?.getD default).start)
  fields := ((s.declarators text access i).zipIdx id).map fun (d, id) => ⟨id, d.span, d.bounds?⟩

theorem fields_addFields (hlt : s.variablesAt i < s.length) :
    (o.addFields access s i).items.filterMap fields? =
      o.items.filterMap fields? ++ [fieldStatement o.source.text access s i o.nextId] := by
  obtain ⟨span, hspan⟩ := exists_cover? (s := s) (by rintro rfl; cases hlt)
  rw [addFields_of_lt o hspan hlt, fieldStatement, declarators, if_pos hlt, hspan,
    Option.getD_some]
  obtain ⟨entries, -, hdeclared⟩ := exists_declare_addDeclaredFields o access
    (s.isWord i "withevents") (splitAtCommas 0 (s.drop (s.variablesAt i)))
  refine (fields_addItem _ _).trans ?_
  rw [hdeclared, items_declare, source_declare, (addDeclaredFields_eq o access _ _).1]
  rfl

theorem exists_of_mem_fields (h : o.steps block rest = .ok (o', block'))
    (hf : f ∈ o'.items.filterMap fields?) :
    f ∈ o.items.filterMap fields? ∨ ∃ before s after o₁ access i, rest = before ++ s :: after ∧
      o.steps block before = .ok (o₁, .code) ∧ ofStatement s = .fields access i ∧
      s.variablesAt i < s.length ∧ f = fieldStatement o₁.source.text access s i o₁.nextId ∧
      (o₁.addFields access s i).steps .code after = .ok (o', block') := by
  rcases exists_step_of_steps (P := fun o _ => f ∈ o.items.filterMap fields?) h hf with
    hfirst | ⟨before, s, after, o₁, block₁, o₂, block₂, rfl, hbefore, hstep, hnot, hmem, hafter⟩
  · exact .inl hfirst
  rcases fields_step hstep with hsame | ⟨access, i, rfl, hkind, hlt, rfl⟩
  · exact absurd (hsame ▸ hmem) hnot
  · rw [step, codeStatement, hkind] at hstep
    cases hstep
    rw [fields_addFields hlt] at hmem
    rcases mem_append.mp hmem with hold | hnew
    · exact absurd hold hnot
    · exact .inr ⟨before, s, after, o₁, access, i, rfl, hbefore, hkind, hlt,
        mem_singleton.mp hnew, hafter⟩

/-! ## Where members begin -/

/-- The start of the open member, and its line. -/
def Construct.place? (text : Text) : Construct → Option (Nat × Nat)
  | .member opened => some (opened.signature.span.start, text.lineOf opened.signature.span.start)
  | _ => none

theorem Construct.place?_of_isClosed (text : Text) (h : block.isClosed = true) :
    block.place? text = none := by
  cases block <;> first | rfl | cases h

/-- The starts of the members with a body, the open one included, and their lines. -/
def bodyPlaces (o : Outline) (block : Construct) : List (Nat × Nat) :=
  ((o.items.filterMap Item.member?).filter (·.body?.isSome)).map
      (fun node => (node.extent.span.start, node.extent.lineStart)) ++
    (block.place? o.source.text).toList

/-- Only a statement at module level begins a member. -/
theorem mem_bodyPlaces_of_effect (h : Effect o s block o' block')
    (hplace : place ∈ o'.bodyPlaces block') :
    place ∈ o.bodyPlaces block ∨ block = .code ∧
      ∃ span, s.cover? = some span ∧ place = (span.start, o.source.text.lineOf span.start) := by
  cases h with
  | names hblock hblock' _ =>
    rw [bodyPlaces, Construct.place?_of_isClosed _ hblock', items_declare] at hplace
    rw [bodyPlaces, Construct.place?_of_isClosed _ hblock]
    exact .inl hplace
  | implements _ => exact .inl (by simpa [bodyPlaces, addItem, member?] using hplace)
  | fields _ _ => exact .inl (by simpa [bodyPlaces, addItem, member?] using hplace)
  | bodyless _ _ _ =>
    exact .inl (by simpa [bodyPlaces, addItem, addMember, addDeclaration, member?] using hplace)
  | @openMember kind access nameAt closing signature _ _ hsignature =>
    have hne : s ≠ [] := by
      rintro rfl
      simp [Statement.signature] at hsignature
    obtain ⟨span, hspan⟩ := exists_cover? hne
    rcases mem_append.mp hplace with hplace | hplace
    · exact .inl (mem_append_left _ hplace)
    · right
      rw [mem_singleton.mp hplace, statementExtent, hspan]
      exact ⟨rfl, span, rfl, rfl⟩
  | openRecord _ =>
    exact .inl (by simpa [bodyPlaces, addBlock, addDeclaration, Construct.place?] using hplace)
  | keep _ => exact .inl (by simpa [bodyPlaces] using hplace)
  | @closeMember opened =>
    have hsame : (o.endMember opened s).bodyPlaces .code = o.bodyPlaces (.member opened) := by
      simp [bodyPlaces, endMember, member?, Text.extent, Construct.place?]
    rw [hsame] at hplace
    exact .inl hplace
  | line _ _ _ => exact .inl (by simpa [bodyPlaces, Construct.place?] using hplace)
  | closeRecord _ =>
    exact .inl (by simpa [bodyPlaces, addItem, member?, Construct.place?] using hplace)

/-- A member with a body begins with a statement that was read at module level. -/
theorem exists_of_mem_bodyPlaces (h : o.steps block rest = .ok (o', block'))
    (hplace : place ∈ o'.bodyPlaces block') :
    place ∈ o.bodyPlaces block ∨ ∃ before s after o₁ span, rest = before ++ s :: after ∧
      o.steps block before = .ok (o₁, .code) ∧ s.cover? = some span ∧
      place = (span.start, o₁.source.text.lineOf span.start) := by
  rcases exists_step_of_steps (P := fun o block => place ∈ o.bodyPlaces block) h hplace with
    hfirst | ⟨before, s, after, o₁, block₁, o₂, block₂, rfl, hbefore, hstep, hnot, hmem, -⟩
  · exact .inl hfirst
  · rcases mem_bodyPlaces_of_effect (effect_of_step hstep) hmem with hold | ⟨rfl, span, hspan⟩
    · exact absurd hold hnot
    · exact .inr ⟨before, s, after, o₁, span, rfl, hbefore, hspan⟩

/-! ## What an outline holds, among the pieces of its source -/

theorem declareAll_of_steps (h : (start base source).steps .code statements = .ok (o, block)) :
    ∃ found, declareAll source.text .code statements = some (found, block.level) := by
  have hlook := (Reading.start statements source base).outlook_steps (fun _ hs => hs)
  rw [h] at hlook
  obtain ⟨⟨found, level⟩, hfound, heq⟩ := Option.map_eq_some_iff.mp hlook.symm
  cases (Prod.mk.inj heq).2
  exact ⟨found, hfound⟩

/-- The statement at a place of a source stands among its pieces after what was read before it. -/
theorem exists_located {before after : List Statement}
    (hstatements : ofTokens (tokenize source.text) = before ++ s :: after)
    (h : (start base source).steps .code before = .ok (o, block)) :
    ∃ lead gap own rest found, pieces .initial source.text = lead ++ gap ++ own ++ rest ∧
      Located 0 before s lead gap own rest ∧
      advance .code [] (lead ++ gap) = some (found, block.level, gap) := by
  obtain ⟨lead, gap, own, rest, hpieces, hlocated⟩ :=
    Lexer.exists_located (forall_mem_nil _) hstatements
  obtain ⟨found, hfound⟩ := declareAll_of_steps h
  rw [nil_append] at hpieces
  refine ⟨lead, gap, own, rest, found, hpieces, hlocated, hlocated.advance ?_ hfound⟩
  rw [← hpieces]
  exact (pieces_text _ _).symm

/-- A token of a statement in a member stands among the pieces of the source inside that member. -/
theorem exists_piece_of_mem_bodies {t : Token} (h : read base source = .ok o)
    (hbody : body ∈ o.bodies) (ht : t ∈ body.tokens) :
    ∃ lead rest closing found q,
      pieces .initial source.text = lead ++ .token t.kind t.text :: rest ∧
      t.kind.isSignificant = true ∧ (flat lead).byteSize = t.start ∧
      (Level.member closing).Standard ∧
      advance .code [] lead = some (found, .member closing, q) := by
  obtain ⟨block, -, hsteps⟩ := steps_of_read h
  rcases exists_of_mem_bodies hsteps hbody with hnone | ⟨before, after, o₁, opened, hrest, hbefore, -⟩
  · cases hnone
  obtain ⟨lead, gap, own, rest, found, hpieces, hlocated, hadvance⟩ := exists_located hrest hbefore
  obtain ⟨found', hfound'⟩ := declareAll_of_steps hbefore
  have hcode : Level.code.Standard := trivial
  have hstandard : (Level.member opened.closing).Standard :=
    standard_of_declareAll hcode hfound'
  rw [← hlocated.tokens] at ht
  obtain ⟨hplace, hsignificant⟩ := mem_filter.mp ht
  obtain ⟨front, back, hown, hstart⟩ := exists_of_mem_place hplace
  refine ⟨lead ++ gap ++ front, back ++ rest, opened.closing, found ++ [], gap ++ front, ?_,
    hsignificant, ?_, hstandard, ?_⟩
  · rw [hpieces, hown]
    simp
  · rw [flat_append, Text.byteSize_append, hstart, Nat.zero_add]
  · refine advance_append_eq_some hadvance (advance_run ?_ _ _)
    intro p hp
    exact hlocated.run p (by rw [hown]; exact mem_append_left _ hp)

/-- A field statement of an outline, as the statement of the source that it is. -/
structure FieldsAt (source : Source) (o : Outline) (f : FieldStatement) where
  statement : Statement
  access : Access
  /-- Where the modifiers end. -/
  index : Nat
  /-- The number of the first field. -/
  firstId : DeclarationId
  before : List Statement
  lead : List Lexer.Piece
  gap : List Lexer.Piece
  own : List Lexer.Piece
  rest : List Lexer.Piece
  pieces : Lexer.pieces .initial source.text = lead ++ gap ++ own ++ rest
  located : Lexer.Located 0 before statement lead gap own rest
  level : ∃ found, Lexer.advance .code [] (lead ++ gap) = some (found, .code, gap)
  mem : statement ∈ Statement.ofTokens (tokenize source.text)
  kind : ModuleStatement.ofStatement statement = .fields access index
  lt : statement.variablesAt index < statement.length
  eq : f = fieldStatement source.text access statement index firstId
  members : ∀ d ∈ (statement.declarators source.text access index).zipIdx firstId,
    (d.2, d.1.selection, d.1.profile) ∈ o.members

theorem nonempty_fieldsAt (h : read base source = .ok o) (hf : f ∈ o.items.filterMap fields?) :
    Nonempty (FieldsAt source o f) := by
  obtain ⟨block, -, hsteps⟩ := steps_of_read h
  rcases exists_of_mem_fields hsteps hf with
    hnone | ⟨before, s, after, o₁, access, i, hrest, hbefore, hkind, hlt, hfield, hafter⟩
  · cases hnone
  obtain ⟨lead, gap, own, rest, found, hpieces, hlocated, hadvance⟩ := exists_located hrest hbefore
  have hreading := (Reading.start (ofTokens (tokenize source.text)) source base).steps
    (fun s hs => by rw [hrest]; exact mem_append_left _ hs) hbefore
  have hs : s ∈ ofTokens (tokenize source.text) := by rw [hrest]; simp
  have hstep : o₁.step .code s = .ok (o₁.addFields access s i, .code) := by
    rw [step, codeStatement, hkind]
  have hprefix := members_prefix_steps hafter
  have hsource := hreading.readFrom.ofSource
  rw [members_addFields, hsource] at hprefix
  refine ⟨⟨s, access, i, o₁.nextId, before, lead, gap, own, rest, hpieces, hlocated,
    ⟨found, hadvance⟩, hs, hkind, hlt, by rw [hfield, hsource], ?_⟩⟩
  intro d hd
  apply hprefix.subset
  exact mem_append_right _ (mem_map.mpr ⟨d, hd, rfl⟩)

end Outline

end VbaRefactor
