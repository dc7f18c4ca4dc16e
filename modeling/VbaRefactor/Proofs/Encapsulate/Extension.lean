import VbaRefactor.Proofs.Encapsulate.ReadBack
import VbaRefactor.Proofs.Encapsulate.RecordLines

/-!
# Fields that come into a record

A record that is there gets a line for every field, right before the line on which it ends. Where the
fields and the record stand on lines of their own, the new text can be read, and the record has the new
members behind those it had. The other edits can take the line out on which it ends.
-/

namespace VbaRefactor

open List Outline Project Lexer Text

variable {sources : List Source} {found : List Outline} {p : Project} {m : ModuleContent} {o : Outline}
  {requests : List FieldRequest} {plans : List PropertyPlan} {state : RecordState}
  {existing : ExistingRecord} {type : Declaration} {block : RecordBlock} {indent? : Option Nat}
  {outcome : Outcome}

namespace Encapsulate

/-- What stands before the first member of a record on its line. -/
def marginOf (text : Text) (block : RecordBlock) : Text :=
  match block.members with
  | first :: _ => (text.lineText first.extent.lineStart).takeWhile isBlank
  | [] => indentation

/-- What the member that takes the place of a field declares. -/
def memberProfile (plan : PropertyPlan) : Profile :=
  ⟨plan.property, .recordMember, .public, some (plan.field.type?.getD "Variant"), false,
    plan.field.isArray⟩

section

variable (p m plans type block)

/-- The edits of uses in the module of the fields. -/
def useEdits : List Edit :=
  ((planRenames p m.source.id true [] (usesOf p plans)).toOption.bind fun renames =>
    (Refill.edits m.source.text ((renames.get? m.source.id).getD [])).toOption).getD []

/-- A statement is taken out with its lines and its fields. -/
def release (s : FieldStatement) : LineChange :=
  ⟨.delete ⟨s.extent.lineStart, s.extent.lineEnd⟩, .code, (plansIn plans s).map (·.field.profile), []⟩

/-- Lines are changed at the level where they stand. -/
def change (m : ModuleLines) (e : Edit) : LineChange :=
  ⟨e, ((declaredBy m.ending .code (m.lines.take e.above)).map Prod.snd).getD .code, [], []⟩

/-- What is done in the module of the fields besides the new lines of the record. -/
def otherChanges : List LineChange :=
  (touched m plans).map (release plans) ++ (⟨accessorsEdit m plans, .code, [], accessorProfiles plans⟩ ::
    (useEdits p m plans).map (change (.ofText m.source.text)))

/-- What is done in the module of the fields where the record gets these members. -/
def extendedEdits (members : List Text) : List Edit :=
  .insert block.endLine (['\n'].intercalate (members.map (marginOf m.source.text block ++ ·))) ::
    (otherChanges p m plans).map (·.edit)

/-- The lines of a record up to the one on which it ends. -/
def recordLines (text : Text) (block : RecordBlock) : List Text :=
  (text.lines.take (block.endLine - 1)).drop (block.extent.lineStart - 1)

/-- The line on which a record ends. -/
def endLines (text : Text) (block : RecordBlock) : List Text :=
  (text.lines.drop (block.endLine - 1)).take 1

/-- The fields can come into the record: they, the record and the uses stand on lines of their own. -/
@[mk_iff]
structure Extends : Prop where
  trailing : m.source.text.endsWithNewline = true
  whole : Whole m.source.text.lineEnding m.source.text.lines
  named : ∀ plan ∈ plans, plan.Writable ∧
    (∀ word ∈ "end".toList :: ModuleStatement.reserved, plan.property.fold ≠ word) ∧
    isPlainName (m.source.text.slice plan.field.selection.span) = true
  /-- What stands behind the name of a field can stand behind that of a member. -/
  behind : ∀ s ∈ touched m plans, ∀ d ∈ s.fields, ∀ plan ∈ planOf? plans d.declaration,
    let after := afterName m.source.text plan.field d
    after.trimEnd = after ∧ (marginOf m.source.text block ++ recordMember m.source.text plan d).Plain ∧
      (plan.field.type? = none → after = [] ∧ plan.field.isArray = false)
  settled : ∀ s ∈ touched m plans, ∀ t ∈ tokenize m.source.text, s.extent.span.start ≤ t.start →
    t.stop ≤ s.extent.span.stop → (Piece.token t.kind t.text).isSettled = true
  /-- The lines of a statement declare its planned fields and nothing else. -/
  released : ∀ s ∈ touched m plans, remainingLines m.source.text s plans true = [] ∧
    (release plans s).Fits (.ofText m.source.text)
  place : (ModuleLines.ofText m.source.text).StandsAt (accessorsEdit m plans).above .code
  /-- The lines with uses end nothing, before and after. -/
  uses : ∀ e ∈ useEdits p m plans, (change (.ofText m.source.text) e).Fits (.ofText m.source.text)
  apart : (.insert block.endLine [] :: (otherChanges p m plans).map (·.edit)).Pairwise Edit.ApartFrom
  free : ∀ c ∈ otherChanges p m plans, c.edit.through < block.extent.lineStart ∧
    c.edit.above + 1 < block.extent.lineStart ∨ block.endLine ≤ c.edit.above
  opens : block.extent.lineStart ≤ block.endLine ∧
    (ModuleLines.ofText m.source.text).StandsAt (block.extent.lineStart - 1) .code
  /-- The lines of the record declare it and its members. -/
  members : Whole m.source.text.lineEnding (recordLines m.source.text block) ∧
    Statement.openRecord? (closed m.source.text.lineEnding (recordLines m.source.text block))
        (statementsOf m.source.text.lineEnding (recordLines m.source.text block)) =
      some (type.profile,
        (p.index.declarations.filter (·.parent? = some type.id)).map Declaration.profile)
  ends : (ModuleLines.ofText m.source.text).StandsAt (block.endLine - 1) .record ∧
    Whole m.source.text.lineEnding (endLines m.source.text block) ∧
    (statementsOf m.source.text.lineEnding (endLines m.source.text block)).head?.any
      (Outline.isEnd · "type") = true
  margin : (marginOf m.source.text block).all isSpace = true
  others : ∀ plan ∈ plans, ∀ r ∈ p.index.referencesTo plan.field.id,
    IsRenamed p m.source.id true plan r → ¬ r.module.Same m.source.id →
      ∀ user ∈ (p.moduleOf r.module).toOption,
        Replaceable user.source.text r.selection.span plan.property

instance : Decidable (Extends p m plans type block) :=
  decidable_of_iff _ (extends_iff p m plans type block).symm

end

/-! ## The edits of the module -/

theorem findStatements_members {statements found : List FieldStatement} {members texts : List Text}
    (h : findStatements m true statements members plans = .ok (found, texts)) :
    ∃ more, texts = members ++ more ∧ Forall₂ (fun plan t => ∃ s d,
      Item.findFields? m.items plan.field.id = some s ∧
        s.fields.find? (·.declaration = plan.field.id) = some d ∧
          t = recordMember m.source.text plan d) plans more := by
  induction plans generalizing statements members with
  | nil =>
    cases h
    exact ⟨[], (append_nil _).symm, .nil⟩
  | cons plan plans ih =>
    obtain ⟨s, hs, _, ⟨d, hd, rfl⟩, hrest⟩ := findStatements_cons h
    obtain ⟨more, rfl, hmore⟩ := ih hrest
    exact ⟨_, append_assoc _ _ _, .cons ⟨s, d, hs, hd, rfl⟩ hmore⟩

/-- The edits of the module, with the one that adds members to the record in front. -/
theorem moduleEdits_existing {edits : List Edit} (hstate : state.existing? = some existing)
    (h : moduleEdits p m plans (some state) indent? = .ok edits) :
    ∃ statements members block, findStatements m true [] [] plans = .ok (statements, members) ∧
      Item.findRecord? m.items existing.type = some block ∧
      edits = .insert block.endLine
        (['\n'].intercalate (members.map (marginOf m.source.text block ++ ·))) ::
          (statementEdits m.source.text plans true [] statements ++ [accessorsEdit m plans]) := by
  rw [moduleEdits] at h
  obtain ⟨⟨statements, members⟩, hfound, h⟩ := bind_eq_ok_iff.mp h
  simp only [hstate] at h
  obtain ⟨_, hextension, h⟩ := bind_eq_ok_iff.mp h
  rw [extendRecord] at hextension
  split at hextension
  · cases hextension
  · split at hextension
    · cases hextension
    · rename_i block hblock
      cases hextension
      cases h
      exact ⟨statements, members, block, hfound, hblock, rfl⟩

/-- Lines that no other edit touches stay before and behind new lines. -/
theorem exists_edited_eq (lines : ModuleLines) (edits : List Edit) {first last : Nat} {text : Text}
    (hreach : (Edit.insert last text).Reaches lines.lines.length) (hfirst : first ≤ last - 1)
    (hsilent : ∀ line, first < line → line ≤ last → ∀ e ∈ edits, e.Silent line) :
    ∃ rest, lines.edited (.insert last text :: edits) = lines.placesFrom edits 1 first ++
      ((lines.lines.take (last - 1)).drop first ++ splitLines text ++
        ((lines.lines.drop (last - 1)).take 1 ++ rest)) := by
  have hbefore : lines.placesFrom edits 1 (last - 1) =
      lines.placesFrom edits 1 first ++ (lines.lines.take (last - 1)).drop first := by
    nth_rewrite 1 [← Nat.add_sub_cancel' hfirst]
    rw [ModuleLines.placesFrom_add, Nat.add_comm 1, lines.placesFrom_of_silent fun line hline hle =>
      hsilent line hline (by omega), drop_take]
  obtain ⟨_, hno, -⟩ | ⟨_, _, heq, hpos, hle⟩ := id hreach
  · cases hno
  cases heq
  obtain ⟨count, hcount⟩ : ∃ count, lines.lines.length + 1 - (last - 1) = 1 + count :=
    Nat.exists_eq_add_of_le (by omega)
  have hedited := (ModuleLines.placesFrom_cons edits hreach
    (fun line hline hle => absurd hline (Nat.not_lt.mpr hle)) (k := lines.lines.length + 1)
    (by simp only [Edit.above]; omega) (by simp only [Edit.through]; omega)).1
  simp only [Edit.above, Edit.through, Edit.output, hcount] at hedited
  have hone : lines.placesFrom edits (last - 1 + 1) 1 = (lines.lines.drop (last - 1)).take 1 :=
    lines.placesFrom_of_silent fun line hline hle => hsilent line (by omega) (by omega)
  refine ⟨lines.placesFrom edits (last - 1 + 1 + 1) count, hedited.trans ?_⟩
  rw [hbefore, ModuleLines.placesFrom_add, hone]
  simp only [append_assoc]

/-- New lines are put between two statements. -/
theorem fits_insert {lines : ModuleLines} {line : Nat} {text : Text} {level : Level} {added : List Profile}
    (hstands : lines.StandsAt (line - 1) level) (hwhole : Whole lines.ending (splitLines text))
    (hnew : declaredBy lines.ending level (splitLines text) = some (added, level)) :
    LineChange.Fits lines ⟨.insert line text, level, [], added⟩ := by
  have hnone : (lines.lines.take (line - 1)).drop (line - 1) = [] :=
    drop_eq_nil_of_le (length_take_le _ _)
  refine ⟨hstands, ?_, ?_, hwhole, hnew⟩
  · simp only [Edit.above, Edit.through, hnone]
    exact whole_nil _
  · simp only [Edit.above, Edit.through, hnone]
    exact declaredBy_nil _ _

/-! ## New lines -/

theorem head?_of_isWritten {line : List Piece} (h : isWritten line = true) :
    (flat line).head? ≠ some '_' := by
  fun_induction isWritten line with
  | case1 =>
    rintro ⟨⟩
  | case2 c rest _ =>
    rintro ⟨⟩
    cases h
  | case3 name rest _ =>
    simp only [Bool.and_eq_true] at h
    obtain ⟨hplain, -, -⟩ := isWritable_iff.mp h.1.1
    cases name with
    | nil => cases hplain
    | cons c tail =>
      rintro ⟨⟩
      cases hplain
  | case4 c rest _ =>
    rintro ⟨⟩
    cases h
  | case5 => cases h

section

variable {ending margin : Text} (he : IsTerminator ending)

include he

theorem declaredBy_accessorsEdit (hplans : ∀ plan ∈ plans, plan.Writable) (hne : plans ≠ []) :
    Whole ending (accessorsEdit m plans).output ∧
      declaredBy ending .code (accessorsEdit m plans).output = some (accessorProfiles plans, .code) := by
  have hwritten {lines : List (List Piece)} (hsome : lines ≠ [])
      (hwritten : ∀ line ∈ lines, isWritten line = true)
      (hdeclare : linesDeclare .code lines = some (accessorProfiles plans, .code)) :
      Whole ending (lines.map flat) ∧
        declaredBy ending .code (lines.map flat) = some (accessorProfiles plans, .code) := by
    have hpieces : pieces .initial (closed ending (lines.map flat)) = closedPieces ending lines := by
      have hpieces := pieces_of_lexes (lexes_closedPieces he hwritten .initial [])
      rwa [append_nil, pieces, append_nil, flat_closedPieces] at hpieces
    refine ⟨⟨?_, forall_mem_map.mpr fun line hline => head?_of_isWritten (hwritten line hline)⟩, ?_⟩
    · obtain ⟨init, last, rfl⟩ : ∃ init last, lines = init ++ [last] :=
        ⟨_, _, (dropLast_concat_getLast hsome).symm⟩
      rw [hpieces]
      simp [closedPieces, Piece.isNewline, ← append_assoc]
    · rw [declaredBy, hpieces]
      exact scan_of_advance_nil (advance_closedPieces hwritten hdeclare)
  rw [accessorsEdit]
  split
  · rw [Edit.output, ← accessorsText, splitLines_before hplans hne]
    exact hwritten (by simp [linesBefore]) (isWritten_linesBefore hplans)
      (linesDeclare_linesBefore hplans)
  · rw [Edit.output, ← accessorsText, splitLines_behind hplans hne]
    exact hwritten (cons_ne_nil _ _) (isWritten_linesBehind hplans) (linesDeclare_linesBehind hplans)

theorem inRecord_of_forall₂ {texts : List Text} (h : Forall₂ (fun plan t =>
      InRecord ending [margin ++ t] [memberProfile plan]) plans texts) :
    InRecord ending (texts.map (margin ++ ·)) (plans.map memberProfile) := by
  induction h with
  | nil =>
    rw [map_nil]
    exact ⟨whole_nil _, by rw [statementsOf_nil]; exact forall_mem_nil _,
      by rw [statementsOf_nil]; rfl⟩
  | cons hfirst _ ih => exact hfirst.append he ih

end

section

variable {base : DeclarationId} (hread : Outline.read base m.source = .ok o) (hitems : m.items = o.items)
  (hplans : (plans.map (·.field.id)).Nodup)
  (hfields : ∀ plan ∈ plans,
    (plan.field.id, plan.field.selection.span, plan.field.profile) ∈ o.members)
  (h : Extends p m plans type block)

include hread hitems hplans hfields h

/-- The line for a field declares a member. -/
theorem inRecord_member {plan : PropertyPlan} (hplan : plan ∈ plans) {s : FieldStatement}
    {d : DeclaredField} (hs : Item.findFields? m.items plan.field.id = some s)
    (hd : s.fields.find? (·.declaration = plan.field.id) = some d) :
    InRecord m.source.text.lineEnding
        [marginOf m.source.text block ++ recordMember m.source.text plan d] [memberProfile plan] ∧
      (marginOf m.source.text block ++ recordMember m.source.text plan d).Plain := by
  obtain ⟨hstatement, -⟩ := mem_of_findFields? hs
  have hmem := mem_of_find?_eq_some hd
  have hid : d.declaration = plan.field.id := by simpa using find?_some hd
  have htouched := (mem_touched hplans).mpr ⟨hstatement, plan, hplan, d, hmem, hid⟩
  obtain ⟨htrim, hplain, hbare⟩ := h.behind s htouched d hmem plan
    (by rw [hid]; exact planOf?_of_mem hplans hplan)
  obtain ⟨hwritable, hword, hname⟩ := h.named plan hplan
  obtain ⟨hproperty, -, -⟩ := isWritable_iff.mp hwritable.property
  obtain ⟨hend, hwords⟩ := forall_mem_cons.mp hword
  have hreserved : plan.property.fold ∉ ModuleStatement.reserved := fun h => hwords _ h rfl
  refine ⟨?_, hplain⟩
  rw [hitems] at hstatement
  obtain ⟨F⟩ := Outline.nonempty_fieldsAt hread hstatement
  rw [F.fields_eq] at hmem
  obtain ⟨e, hentry, rfl⟩ := mem_map.mp hmem
  obtain ⟨hselection, hprofile⟩ := describes_of_mem hread F hfields e hentry plan hplan hid.symm
  rw [hselection] at hname
  obtain ⟨post, hmoved⟩ := F.exists_moved_entry (isSettled_own F (h.settled s htouched)) hentry
    hproperty hreserved hname
  have hafter : afterName m.source.text plan.field ⟨e.2, e.1.span, e.1.bounds?⟩ =
      m.source.text.slice ⟨e.1.selection.stop, e.1.span.stop⟩ := by
    rw [afterName, hselection]
  have hline := hmoved.inRecord (isTerminator_lineEnding m.source.text) hwritable.property
    (by simpa using ⟨hend, fun hevents => hreserved (by simp [hevents, ModuleStatement.reserved])⟩)
    (by rw [← hafter, ← hprofile]; exact hbare) (all_eq_true.mp h.margin)
  rw [← hafter, ← hprofile] at hline
  have htext : recordMember m.source.text plan ⟨e.2, e.1.span, e.1.bounds?⟩ = plan.property ++
      (afterName m.source.text plan.field ⟨e.2, e.1.span, e.1.bounds?⟩ ++
        if plan.field.type?.isNone then " As Variant".toList else []) := by
    rw [recordMember, htrim]
    split <;> simp
  rw [htext]
  exact hline

omit hread hitems hplans hfields in
/-- All changes but the new lines of the record are made with whole lines. -/
theorem fits_otherChanges (hne : plans ≠ []) :
    ∀ c ∈ otherChanges p m plans, c.Fits (.ofText m.source.text) := by
  have hplace := h.place
  obtain ⟨hwhole, hdeclared⟩ := declaredBy_accessorsEdit (m := m) (isTerminator_lineEnding m.source.text)
    (fun plan hplan => (h.named plan hplan).1) hne
  refine forall_mem_append.mpr ⟨forall_mem_map.mpr fun s hs => (h.released s hs).2,
    forall_mem_cons.mpr ⟨?_, forall_mem_map.mpr h.uses⟩⟩
  have hinsert : ∃ line text, accessorsEdit m plans = .insert line text := by
    rw [accessorsEdit]
    split <;> exact ⟨_, _, rfl⟩
  obtain ⟨line, text, hinsert⟩ := hinsert
  rw [hinsert] at hplace hwhole hdeclared ⊢
  exact fits_insert hplace hwhole hdeclared

/-- The module of the fields, read again, declares accessors instead of them, and the record has the new
members behind those it had. -/
theorem exists_read_extended (ht : ClosedBy m.source.text.lineEnding m.source.text) (hne : plans ≠ [])
    {members : List Text} (hmembers : findStatements m true [] [] plans = .ok (touched m plans, members))
    (hreaches : ∀ e ∈ extendedEdits p m plans block members, e.Reaches m.source.text.lines.length)
    (base' : DeclarationId) :
    let lines := ModuleLines.ofText m.source.text
    let text := closed lines.ending (lines.edited (extendedEdits p m plans block members))
    ∃ o', Outline.read base' { m.source with text } = .ok o' ∧
      (o'.profiles ++ ((touched m plans).flatMap (plansIn plans)).map (·.field.profile)).Perm
        (o.profiles ++ accessorProfiles plans) ∧
      ∃ id span, (id, span, type.profile) ∈ o'.members ∧ o'.membersOf id =
        (p.index.declarations.filter (·.parent? = some type.id)).map Declaration.profile ++
          plans.map memberProfile := by
  intro lines text
  have he := isTerminator_lineEnding m.source.text
  obtain ⟨_, rfl, hmembers⟩ := findStatements_members hmembers
  have hlines : Forall₂ (fun plan t =>
      InRecord m.source.text.lineEnding [marginOf m.source.text block ++ t] [memberProfile plan] ∧
        (marginOf m.source.text block ++ t).Plain) plans members := by
    refine ((forall₂_and_left (p := (· ∈ plans)) _ _).mpr ⟨fun _ => id, hmembers⟩).imp ?_
    rintro plan _ ⟨hplan, s, d, hs, hd, rfl⟩
    exact inRecord_member hread hitems hplans hfields h hplan hs hd
  have hinside := inRecord_of_forall₂ he (hlines.imp fun _ _ hline => hline.1)
  have hsplit : splitLines (['\n'].intercalate (members.map (marginOf m.source.text block ++ ·))) =
      members.map (marginOf m.source.text block ++ ·) := by
    refine splitLines_intercalate (.inl rfl) (forall_mem_map.mpr fun t ht => ?_) ?_
    · obtain ⟨plan, -, -, hplain⟩ := exists_of_forall₂ hlines ht
      exact hplain.oneLine
    · rw [Ne, map_eq_nil_iff, ← length_eq_zero_iff, ← hlines.length_eq, length_eq_zero_iff]
      exact hne
  have hothers := fits_otherChanges h hne
  obtain ⟨hfirst, hrest⟩ := pairwise_cons.mp h.apart
  let insertion : LineChange := ⟨.insert block.endLine
    (['\n'].intercalate (members.map (marginOf m.source.text block ++ ·))), .record, [], []⟩
  have hinsertion : insertion.Fits lines := by
    refine fits_insert h.ends.1 ?_ ?_ <;> rw [hsplit]
    · exact hinside.whole
    · exact hinside.declaredBy
  have hall : ∀ c ∈ insertion :: otherChanges p m plans, c.edit.Reaches lines.lines.length :=
    forall_mem_map.mp hreaches
  obtain ⟨hwhole, o', ho', hperm⟩ := ModuleLines.exists_read_edited he hall
    (forall_mem_cons.mpr ⟨hinsertion, hothers⟩)
    (pairwise_cons.mpr ⟨forall_mem_map.mp hfirst, pairwise_map.mp hrest⟩) rfl ht h.trailing h.whole
    hread base'
  obtain ⟨hreach, hreaches⟩ := forall_mem_cons.mp hall
  refine ⟨o', ho', ?_, ?_⟩
  · have hnone {α : Type} (l : List α) : l.flatMap (fun _ => ([] : List Profile)) = [] := by simp
    have hremoved : (insertion :: otherChanges p m plans).flatMap LineChange.removed =
        ((touched m plans).flatMap (plansIn plans)).map (·.field.profile) := by
      simp [insertion, otherChanges, flatMap_map, release, change, map_flatMap]
    have hadded : (insertion :: otherChanges p m plans).flatMap LineChange.added =
        accessorProfiles plans := by
      simp [insertion, otherChanges, flatMap_map, release, change, hnone]
    rwa [hremoved, hadded] at hperm
  · obtain ⟨hopens, hstands⟩ := h.opens
    obtain ⟨rest, hedited⟩ := exists_edited_eq lines
      ((otherChanges p m plans).map (·.edit)) hreach (Nat.sub_le_sub_right hopens 1) fun line hline hlast =>
        forall_mem_map.mpr fun c hc => by
          have hfree := h.free c hc
          exact ModuleLines.silent_of_outside (m := lines) (hreaches c hc) (by omega)
    obtain ⟨hbefore, found, hfound, -⟩ := hstands.placesFrom he hreaches hothers
      (pairwise_map.mp hrest) fun c hc => by
        have hfree := h.free c hc
        omega
    rw [hsplit] at hedited
    rw [map_cons, hedited] at hwhole
    obtain ⟨s, hs, hend⟩ := (Option.any_eq_true _ _).mp h.ends.2.2
    refine exists_record_of_lines he ho' (congrArg (closed lines.ending) hedited) hwhole hbefore
      (h.members.1.append he hinside.whole) (congrArg (Option.map Prod.snd) hfound)
      (openRecord?_append he h.members.1 h.members.2 hinside) ?_
    have hbehind := (forall_mem_append.mp (forall_mem_append.mp (forall_mem_append.mp hwhole.2).2).2).2
    have hhead := congrArg List.head? (statementsOf_append he h.ends.2.1 hbehind)
    rw [head?_append, hs] at hhead
    exact (congrArg (Option.any _) hhead).trans hend

end

/-- The second outline declares accessors instead of the planned fields, and a record with new members. -/
def Extended (p : Project) (plans : List PropertyPlan) (type : Declaration) (o o' : Outline) : Prop :=
  o'.profiles.Perm (((o.declarations.filter (·.parent? = some o.base)).filter
    (!isPlanned plans ·)).map Declaration.profile ++ accessorProfiles plans) ∧
  ∃ id span, (id, span, type.profile) ∈ o'.members ∧ o'.membersOf id =
    (p.index.declarations.filter (·.parent? = some type.id)).map Declaration.profile ++
      plans.map memberProfile

/-- The edits of the module are those of the statements, of the record, of the accessors and of the uses. -/
theorem exists_read_record {planning : Planning (.ofOutlines found) requests (some state)} {renames : ModuleMap (List Refill)}
    (hnames : (found.map source).Pairwise fun a b => ¬ a.id.Same b.id)
    (hcarries : planning.Carries indent? renames outcome) (hstate : state.existing? = some existing)
    (hblock : Item.findRecord? planning.module.items existing.type = some block)
    (h : Extends (.ofOutlines found) planning.module planning.plans type block) (ho : o ∈ found)
    (hfound : outlines 0 sources = .ok found)
    (ht : ClosedBy o.source.text.lineEnding o.source.text)
    (hsame : o.source.id.Same planning.module.source.id) (base' : DeclarationId) :
    ∃ o', Outline.read base'
        { o.source with text := (outcome.changes.get? o.source.id).getD o.source.text } = .ok o' ∧
      Extended (.ofOutlines found) planning.plans type o o' := by
  have hread := read_of_mem hfound ho
  have hfirst : o.source.id.Same planning.first.module :=
    hsame.trans (same_of_get?_modules hnames _ _ planning.get?_module)
  obtain ⟨own, words, hedits, hown⟩ := hcarries.exists_editsOf (same_of_get?_modules hnames)
    (c := ⟨o.source, o.items⟩) (get?_modules_of_mem hnames ho) ht
  rw [if_pos hsame] at hown
  obtain ⟨hcontent, hown⟩ := hown
  have hplanned := hcarries.planned
  rw [← hcontent] at hown hblock h hplanned
  obtain ⟨statements, members, _, hstatements, hblock', rfl⟩ := moduleEdits_existing hstate hown
  cases hblock.symm.trans hblock'
  cases found_eq_touched hread rfl planning.apart.1 hstatements
  have hgiven := plansIn_touched_perm hread rfl planning.apart.1 hstatements
  have hwords : useEdits (.ofOutlines found) ⟨o.source, o.items⟩ planning.plans = words := by
    have hrendered := hedits.rendered
    have hplanned : planRenames (.ofOutlines found) o.source.id true []
      (usesOf (.ofOutlines found) planning.plans) = .ok renames := hplanned
    simp [useEdits, hplanned, hrendered, Except.toOption]
  have hothers : (otherChanges (.ofOutlines found) ⟨o.source, o.items⟩ planning.plans).map (·.edit) =
      statementEdits o.source.text planning.plans true [] (touched ⟨o.source, o.items⟩ planning.plans) ++
        ([accessorsEdit ⟨o.source, o.items⟩ planning.plans] ++ words) := by
    rw [otherChanges, hwords, map_append, statementEdits_eq]
    refine congrArg₂ (· ++ ·) ?_ ?_
    · rw [map_map, map_eq_flatMap]
      exact flatMap_congr fun s hs => by
        rw [(h.released s hs).1]
        rfl
    · simp [change, Function.comp_def]
  have hreaches := hedits.reaches
  have htext := hedits.text
  rw [cons_append, append_assoc, ← hothers] at hreaches htext
  rw [ModuleLines.joined_of_trailing h.trailing] at htext
  obtain ⟨o', ho', hperm, hrecord⟩ := exists_read_extended hread rfl planning.apart.1
    (fun plan hplan => mem_map_of_mem (field_mem_moduleMembers hfound hnames planning ho hfirst plan hplan))
    h ht planning.plans_ne_nil hstatements hreaches base'
  refine ⟨o', by rw [htext]; exact ho', ?_, hrecord⟩
  exact profiles_perm hfound hnames planning ho hfirst
    (((hgiven.map _).symm.append_left _).trans hperm)

end Encapsulate

open Encapsulate in
/-- Fields come into a record that is there. The new texts can be read. The record then has its old members
and behind them one for each request, with the name of the property and the type of the field. The module
declares what it declared but for the fields, and their accessors. The other modules declare what they
declared. -/
theorem Project.encapsulate_extends_record (hread : Project.read sources = .ok p)
    (hnames : sources.Pairwise fun a b => ¬ a.id.Same b.id) (hbreaks : ∀ s ∈ sources, s.text.Unmixed)
    (hstate : state.existing? = some existing)
    (hrun : p.encapsulate requests (some state) indent? = .ok outcome)
    (hplanned : planned? p requests (some state) = some (m, plans))
    (htype : p.index.declarations[existing.type]? = some type)
    (hblock : Item.findRecord? m.items existing.type = some block)
    (hextends : Extends p m plans type block) :
    Forall₂ (fun request plan => plan.field.id = request.field ∧
      plan.property = request.property?.getD plan.field.name.capitalized) requests plans ∧
    ∃ p', Project.read (Plan.update outcome.changes sources) = .ok p' ∧
      ((p'.index.moduleMembers m.source.id).map Declaration.profile).Perm
        (((p.index.moduleMembers m.source.id).filter (!isPlanned plans ·)).map Declaration.profile ++
          accessorProfiles plans) ∧
      (∃ record ∈ p'.index.moduleMembers m.source.id, record.profile = type.profile ∧
        (p'.index.declarations.filter (·.parent? = some record.id)).map Declaration.profile =
          (p.index.declarations.filter (·.parent? = some existing.type)).map Declaration.profile ++
            plans.map memberProfile) ∧
      ∀ s ∈ sources, ¬ s.id.Same m.source.id →
        ((p'.index.moduleMembers s.id).map Declaration.profile).Perm
          ((p.index.moduleMembers s.id).map Declaration.profile) := by
  obtain ⟨found, hfound, rfl⟩ := exists_outlines_of_read hread
  obtain ⟨rfl, -, -⟩ := outlines_readFrom hfound
  rcases exists_carries hrun with ⟨rfl, -⟩ | ⟨planning, renames, hcarries⟩
  · cases hplanned
  cases planning.planned?_eq.symm.trans hplanned
  refine ⟨planning.plansOf.imp fun request plan hplan => ?_, ?_⟩
  · obtain ⟨-, hfield, hof⟩ := hplan
    exact ⟨id_of_getElem? hfound hfield.found, hof.property⟩
  rw [← id_of_getElem? hfound htype]
  have hclosed {o : Outline} (ho : o ∈ found) : Text.ClosedBy o.source.text.lineEnding o.source.text :=
    (Text.unmixed_iff _).mp (hbreaks o.source (mem_map_of_mem ho))
  obtain ⟨found', hfound', ⟨o, o', ho', hextended, hold, hnew⟩, hothers⟩ := exists_read_update
    outcome (R := Extended (.ofOutlines found) planning.plans type) hfound hnames planning
    fun o ho base => by
    by_cases hsame : o.source.id.Same planning.module.source.id
    · simp only [if_pos hsame]
      exact exists_read_record hnames hcarries hstate hblock hextends ho hfound (hclosed ho) hsame base
    · simp only [if_neg hsame]
      exact exists_read_other hnames hcarries ho hfound (hclosed ho)
        (fun plan hplan => (hextends.named plan hplan).1.property) hextends.others hsame base
  obtain ⟨hperm, id, span, hmember, hmembers⟩ := hextended
  refine ⟨.ofOutlines found', by rw [read, hfound']; rfl, ?_, ?_, hothers⟩
  · rw [hnew, hold, ← profiles_eq]
    exact hperm
  · obtain ⟨record, hrecord, heq⟩ := mem_map.mp hmember
    obtain ⟨rfl, -, hprofile⟩ : record.id = id ∧ _ ∧ record.profile = type.profile := by simpa using heq
    refine ⟨record, by rw [hnew]; exact hrecord, hprofile, ?_⟩
    rw [filter_parent_eq hfound' ho' (has_of_mem_declarations hfound' ho' (mem_of_mem_filter hrecord))]
    exact hmembers

open Encapsulate in
/-- Two variables of one statement come into a record, the second one first, and one of them is used. -/
theorem encapsulate_extends_record_object :
    let source : Source := ⟨⟨"P", "Counter"⟩, .classModule, ("Private Type TState\n  Count As Long\n" ++
      "End Type\nPrivate this As TState\nPublic total(1 To 3) As Long, owner\n" ++
      "Public Sub Own()\n  owner = 1\nEnd Sub\n").toList⟩
    let requests : List FieldRequest := [⟨5, false, none⟩, ⟨4, false, some "Sums"⟩]
    let state : RecordState := ⟨⟨"P", "Counter"⟩, "TState", "this", some ⟨3, 1⟩, []⟩
    let members : List (Text × Option Text × Bool) :=
      [("Count", some "Long", false), ("Owner", some "Variant", false), ("Sums", some "Long", true)]
    ∃ p outcome p', Project.read [source] = .ok p ∧ RecordState.ofField p.index 3 = .ok state ∧
      p.encapsulate requests (some state) none = .ok outcome ∧
      Project.read (Plan.update outcome.changes [source]) = .ok p' ∧
      ∃ record ∈ p'.index.moduleMembers source.id, record.name = "TState".toList ∧
        (p'.index.declarations.filter (·.parent? = some record.id)).map
          (fun d => (d.name, d.type?, d.isArray)) = members := by
  intro source requests state members
  have hrun : ((Project.read [source]).bind fun p =>
      (p.encapsulate requests (some state) none).map fun _ =>
        (planned? p requests (some state)).bind fun (m, plans) =>
          p.index.declarations[1]?.bind fun type => (Item.findRecord? m.items 1).map fun block =>
            decide (m.source = source ∧ (RecordState.ofField p.index 3).toOption = some state ∧
              Extends p m plans type block ∧ type.name = "TState".toList ∧
              ((p.index.declarations.filter (·.parent? = some 1)).map Declaration.profile ++
                plans.map memberProfile).map (fun d => (d.name, d.type?, d.isArray)) =
                  members)).toOption = some (some true) := by
    decide +kernel
  obtain ⟨p, outcome, hread, hok, hfound⟩ := exists_of_run hrun
  obtain ⟨⟨m, plans⟩, hplanned, hfound⟩ := Option.bind_eq_some_iff.mp hfound
  obtain ⟨type, htype, hfound⟩ := Option.bind_eq_some_iff.mp hfound
  obtain ⟨block, hblock, hvalues⟩ := Option.map_eq_some_iff.mp hfound
  obtain ⟨hsource, hstate, hextends, hname, hmembers⟩ := of_decide_eq_true hvalues
  obtain ⟨-, p', hread', -, ⟨record, hrecord, hprofile, hall⟩, -⟩ :=
    Project.encapsulate_extends_record hread (pairwise_singleton _ _) (by decide +kernel) rfl hok
      hplanned htype hblock hextends
  rw [hsource] at hrecord
  refine ⟨p, outcome, p', hread, eq_ok_of_mem_toOption hstate, hok, hread', record, hrecord,
    (congrArg Profile.name hprofile).trans hname, ?_⟩
  rw [← hmembers, ← hall, map_map]
  rfl

open Encapsulate in
/-- Where a field shares its line with the end of the record, this goes with the field, and the text
cannot be read any more. -/
theorem extends_record_fails_behind_end :
    let source : Source := ⟨⟨"P", "Class1"⟩, .classModule,
      "Private Type T\n    x As Long\nEnd Type: Public a As Long\nPrivate this As T\n".toList⟩
    let requests : List FieldRequest := [⟨3, false, none⟩]
    let state : RecordState := ⟨⟨"P", "Class1"⟩, "T", "this", some ⟨4, 1⟩, []⟩
    ∃ p outcome, Project.read [source] = .ok p ∧ RecordState.ofField p.index 4 = .ok state ∧
      p.encapsulate requests (some state) none = .ok outcome ∧
      ∀ p', Project.read (Plan.update outcome.changes [source]) ≠ .ok p' := by
  intro source requests state
  have hrun : ((Project.read [source]).bind fun p =>
      (p.encapsulate requests (some state) none).map fun _ =>
        (planned? p requests (some state)).bind fun found =>
          (moduleEdits p found.1 found.2 (some state) none).toOption.map fun own =>
            let text := (ModuleLines.ofText source.text).joined
              ((ModuleLines.ofText source.text).edited own)
            decide (usesOf p found.2 = [] ∧ (RecordState.ofField p.index 4).toOption = some state ∧
              (Project.read [{ source with text }]).toOption.isNone = true)).toOption =
        some (some true) := by
    decide +kernel
  obtain ⟨p, outcome, hread, hok, hfound⟩ := exists_of_run hrun
  obtain ⟨⟨m, plans⟩, hplanned, hfound⟩ := Option.bind_eq_some_iff.mp hfound
  obtain ⟨own, hown, hfound⟩ := Option.map_eq_some_iff.mp hfound
  obtain ⟨huses, hstate, hnone⟩ := of_decide_eq_true hfound
  refine ⟨p, outcome, hread, eq_ok_of_mem_toOption hstate, hok, ?_⟩
  intro p' hread'
  rw [update_of_unused hread (by decide +kernel) hok hplanned huses (eq_ok_of_mem_toOption hown)] at hread'
  rw [hread'] at hnone
  cases hnone

end VbaRefactor
