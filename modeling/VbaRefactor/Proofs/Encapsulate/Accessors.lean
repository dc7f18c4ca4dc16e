import VbaRefactor.Encapsulate
import VbaRefactor.Proofs.Syntax.Written

/-!
# What accessors declare

The accessors of a property are read as the pieces they are written with. Each of them declares a
member of the property, with the type of the field for the one that reads.
-/

namespace VbaRefactor

open List Text

variable {plans : List PropertyPlan}

namespace Encapsulate

open Lexer

def typePieces (name : Text) : List Piece := pieces ⟨false, true, false⟩ name

theorem flat_typePieces (name : Text) : flat (typePieces name) = name := pieces_text _ _

/-- The names and the type of a plan are read as they are written. The storage can be a member of a
record. -/
@[mk_iff]
structure PropertyPlan.Writable (plan : PropertyPlan) : Prop where
  property : isWritable plan.property = true
  backing : isDotted (typePieces plan.backing) = true
  typeName : isDotted (typePieces plan.typeName) = true

instance (plan : PropertyPlan) : Decidable plan.Writable :=
  decidable_of_iff _ (PropertyPlan.writable_iff plan).symm

/-! ## The lines of accessors -/

/-- One step of indentation. -/
def indentPieces : List Piece := [gap, gap, gap, gap]

def assignPieces (target value : List Piece) : List Piece := target ++ [gap, mark '=', gap] ++ value

/-- The parameter that carries an assigned value. -/
def parameterPieces (passing : Text) (type : List Piece) : List Piece :=
  [word passing, gap, word valueParameter, gap, word "As", gap] ++ type

/-- The last line of an accessor. -/
def endLine : List Piece := [word "End", gap, word "Property"]

/-- The lines between the first and the last one of the accessor that reads. -/
def getBody (plan : PropertyPlan) : List (List Piece) :=
  let assign := assignPieces [word plan.property] (typePieces plan.backing)
  match plan.storage with
  | .object => [indentPieces ++ [word "Set", gap] ++ assign]
  | .variant => [
      indentPieces ++ [word "If", gap, word "IsObject", mark '('] ++ typePieces plan.backing ++
        [mark ')', gap, word "Then"],
      indentPieces ++ indentPieces ++ [word "Set", gap] ++ assign,
      indentPieces ++ [word "Else"],
      indentPieces ++ indentPieces ++ assign,
      indentPieces ++ [word "End", gap, word "If"]]
  | .value | .record | .array => [indentPieces ++ assign]

/-- The lines of the accessor that reads. -/
def getLines (plan : PropertyPlan) : List (List Piece) :=
  propertyLine "Get" plan.property [] (resultPieces (typePieces plan.typeName)) :: getBody plan ++
    [endLine]

/-- The lines of the accessor that assigns a value. -/
def letLines (plan : PropertyPlan) : List (List Piece) :=
  let passing : Text := if plan.storage = .record then "ByRef" else "ByVal"
  [propertyLine "Let" plan.property (parameterPieces passing (typePieces plan.typeName)) [],
    indentPieces ++ assignPieces (typePieces plan.backing) [word valueParameter], endLine]

/-- The lines of the accessor that assigns an object. -/
def setLines (plan : PropertyPlan) : List (List Piece) :=
  [propertyLine "Set" plan.property (parameterPieces "ByVal" (typePieces plan.typeName)) [],
    indentPieces ++ [word "Set", gap] ++ assignPieces (typePieces plan.backing) [word valueParameter],
    endLine]

def accessorKinds (plan : PropertyPlan) : List DeclarationKind :=
  .propertyGet ::
    if plan.readOnly then []
    else match plan.storage with
      | .value | .record => [.propertyLet]
      | .object => [.propertySet]
      | .variant => [.propertyLet, .propertySet]
      | .array => []

def accessorLines (plan : PropertyPlan) : DeclarationKind → List (List Piece)
  | .propertyLet => letLines plan
  | .propertySet => setLines plan
  | _ => getLines plan

/-- What an accessor declares. -/
def accessorProfile (plan : PropertyPlan) (kind : DeclarationKind) : Profile where
  name := plan.property
  kind := kind
  access := .public
  type? := if kind = .propertyGet then some plan.typeName else none
  isWithEvents := false
  isArray := false

section

variable {plan : PropertyPlan} {closing : Text}

theorem map_flat_getLines (plan : PropertyPlan) : (getLines plan).map flat = getAccessor plan := by
  rw [getLines, getAccessor, getBody]
  cases plan.storage <;>
    simp [propertyLine, resultPieces, assignPieces, indentPieces, endLine, indentation, flat_typePieces,
      Text.concat, Piece.text]

theorem map_flat_letLines (plan : PropertyPlan) : (letLines plan).map flat = letAccessor plan := by
  simp [letLines, letAccessor, propertyLine, parameterPieces, assignPieces, indentPieces, endLine,
    indentation, flat_typePieces, Text.concat, Piece.text]

theorem map_flat_setLines (plan : PropertyPlan) : (setLines plan).map flat = setAccessor plan := by
  simp [setLines, setAccessor, propertyLine, parameterPieces, assignPieces, indentPieces, endLine,
    indentation, flat_typePieces, Text.concat, Piece.text]

theorem map_flat_accessorLines (plan : PropertyPlan) :
    (accessorKinds plan).map (fun kind => (accessorLines plan kind).map flat) = accessors plan := by
  rw [accessorKinds, accessors, map_cons]
  refine congrArg₂ List.cons (map_flat_getLines plan) ?_
  split
  · rfl
  · cases plan.storage <;> simp [accessorLines, map_flat_letLines, map_flat_setLines]

/-! ## How they are read -/

/-- The words of accessors besides names. -/
def accessorKeywords : List Text :=
  ["Public".toList, "Property".toList, "Get".toList, "Let".toList, "Set".toList, "As".toList,
    "ByVal".toList, "ByRef".toList, "RHS".toList, "End".toList, "If".toList, "IsObject".toList,
    "Then".toList, "Else".toList]

theorem isWritable_keyword {name : Text} (h : name ∈ accessorKeywords) : isWritable name = true := by
  have hall : ∀ name ∈ accessorKeywords, isWritable name = true := by decide
  exact hall name h

theorem isWritten_propertyLine {accessor property : Text} {inner result : List Piece}
    (haccessor : isWritable accessor = true) (hproperty : isWritable property = true)
    (h : isWritten (inner ++ mark ')' :: result) = true) :
    isWritten (propertyLine accessor property inner result) = true := by
  simp (disch := decide) only [propertyLine, cons_append, nil_append, isWritten,
    head?_cons, Option.any_some, Piece.isName, isWritable_keyword, haccessor, hproperty, h]
  rfl

theorem isWritten_of_isDotted {ps : List Piece} (h : isDotted ps = true) : isWritten ps = true := by
  have hwritten : isWritten (ps ++ []) = isWritten [] := isWritten_append_of_isDotted h rfl
  rwa [append_nil] at hwritten

section

variable {target value : List Piece} (htarget : isDotted target = true) (hvalue : isDotted value = true)

include htarget hvalue

theorem isWritten_assignPieces : isWritten (assignPieces target value) = true := by
  rw [assignPieces, append_assoc, isWritten_append_of_isDotted htarget rfl]
  show isWritten value = true
  exact isWritten_of_isDotted hvalue

theorem isWritten_setting : isWritten ([word "Set", gap] ++ assignPieces target value) = true :=
  (isWritten_word (isWritable_keyword (by decide)) rfl).trans (isWritten_assignPieces htarget hvalue)

end

theorem isWritten_getBody (hplan : plan.Writable) : ∀ line ∈ getBody plan, isWritten line = true := by
  have hproperty : isDotted [word plan.property] = true := hplan.property
  have hassign := isWritten_assignPieces hproperty hplan.backing
  have hsetting := isWritten_setting hproperty hplan.backing
  have htest : isWritten (indentPieces ++ [word "If", gap, word "IsObject", mark '('] ++
      typePieces plan.backing ++ [mark ')', gap, word "Then"]) = true := by
    have hrest : isWritten (typePieces plan.backing ++ [mark ')', gap, word "Then"]) = true := by
      rw [isWritten_append_of_isDotted hplan.backing rfl]
      decide
    rw [append_assoc]
    simp (disch := decide) only [indentPieces, cons_append, nil_append, isWritten,
      head?_cons, Option.any_some, Piece.isName, isWritable_keyword, hrest]
    rfl
  rw [getBody]
  cases plan.storage with
  | value | record | array => exact forall_mem_singleton.mpr hassign
  | object => exact forall_mem_singleton.mpr hsetting
  | variant =>
    simp only [forall_mem_cons]
    exact ⟨htest, hsetting, by decide, hassign, by decide, forall_mem_nil _⟩

theorem isWritten_parameterPieces {passing : Text} {type : List Piece}
    (hpassing : isWritable passing = true) (htype : isDotted type = true) :
    isWritten (parameterPieces passing type ++ [mark ')']) = true := by
  have hrest : isWritten (type ++ [mark ')']) = true := isWritten_append_of_isDotted htype rfl
  simp (disch := decide) only [parameterPieces, valueParameter, cons_append, nil_append,
    isWritten, head?_cons, Option.any_some, Piece.isName, isWritable_keyword, hpassing, hrest]
  rfl

/-- All lines of accessors consist of words, blanks and marks. -/
theorem isWritten_accessorLines (hplan : plan.Writable) (kind : DeclarationKind) :
    ∀ line ∈ accessorLines plan kind, isWritten line = true := by
  have hend : isWritten endLine = true := by decide
  have hvalue : isDotted [word valueParameter] = true := isWritable_keyword (by decide)
  have hget : ∀ line ∈ getLines plan, isWritten line = true := by
    refine forall_mem_cons.mpr ⟨?_, forall_mem_append.mpr
      ⟨isWritten_getBody hplan, forall_mem_singleton.mpr hend⟩⟩
    have htype := isWritten_of_isDotted hplan.typeName
    refine isWritten_propertyLine (isWritable_keyword (by decide)) hplan.property ?_
    simp (disch := decide) only [resultPieces, cons_append, nil_append, isWritten,
      head?_cons, Option.any_some, Piece.isName, isWritable_keyword, htype]
    rfl
  cases kind with
  | propertyLet =>
    refine forall_mem_cons.mpr ⟨?_, forall_mem_cons.mpr
      ⟨isWritten_assignPieces hplan.backing hvalue, forall_mem_singleton.mpr hend⟩⟩
    refine isWritten_propertyLine (isWritable_keyword (by decide)) hplan.property ?_
    refine isWritten_parameterPieces ?_ hplan.typeName
    split <;> exact isWritable_keyword (by decide)
  | propertySet =>
    refine forall_mem_cons.mpr ⟨?_, forall_mem_cons.mpr
      ⟨isWritten_setting hplan.backing hvalue, forall_mem_singleton.mpr hend⟩⟩
    refine isWritten_propertyLine (isWritable_keyword (by decide)) hplan.property ?_
    exact isWritten_parameterPieces (isWritable_keyword (by decide)) hplan.typeName
  | _ => exact hget

/-! ## What they declare -/

theorem runDeclares_inside {line : List Piece}
    (h : Outline.isEnd (ownStatement line) closing = false) :
    runDeclares (.member closing) line = some ([], .member closing) := by
  rw [runDeclares, Statement.declaresRun]
  split
  · rfl
  · rw [Statement.declares, h]
    rfl

/-- An assignment ends no member. -/
theorem isEnd_assignPieces {target : List Piece} (h : isDotted target = true) (value : List Piece)
    (closing : Text) :
    Outline.isEnd (ownStatement (indentPieces ++ assignPieces target value)) closing = false := by
  fun_induction isDotted target with
  | case1 name => exact Bool.and_false _
  | case2 name ps => exact Bool.and_false _
  | case3 => cases h

/-- No line of the accessor that reads is its end but the last one. -/
theorem isEnd_getBody (plan : PropertyPlan) :
    ∀ line ∈ getBody plan, Outline.isEnd (ownStatement line) "property" = false := by
  rw [getBody]
  cases plan.storage with
  | value | record | array => exact forall_mem_singleton.mpr (Bool.and_false _)
  | object => exact forall_mem_singleton.mpr rfl
  | variant =>
    simp only [forall_mem_cons]
    exact ⟨rfl, rfl, rfl, Bool.and_false _, rfl, forall_mem_nil _⟩

theorem linesDeclare_member {profile : Profile} {head last : List Piece} {body : List (List Piece)}
    (hhead : runDeclares .code head = some ([profile], .member closing))
    (hbody : ∀ line ∈ body, Outline.isEnd (ownStatement line) closing = false)
    (hlast : runDeclares (.member closing) last = some ([], .code)) :
    linesDeclare .code (head :: body ++ [last]) = some ([profile], .code) := by
  have hinside : linesDeclare (.member closing) (body ++ [last]) = some ([], .code) := by
    induction body with
    | nil => simp [linesDeclare, hlast]
    | cons line body ih =>
      obtain ⟨hline, hrest⟩ := forall_mem_cons.mp hbody
      rw [cons_append, linesDeclare_cons (runDeclares_inside hline), ih hrest]
      rfl
  rw [cons_append, linesDeclare_cons hhead, hinside]
  rfl

/-- An accessor is a member of the property. -/
theorem linesDeclare_accessorLines (hplan : plan.Writable) {kind : DeclarationKind}
    (hkind : kind ∈ accessorKinds plan) :
    linesDeclare .code (accessorLines plan kind) = some ([accessorProfile plan kind], .code) := by
  obtain ⟨hproperty, -, -⟩ := isWritable_iff.mp hplan.property
  have hend : runDeclares (.member "property") endLine = some ([], .code) := rfl
  have hinner (passing : Text) (hpassing : isWritable passing = true) :
      ∀ p ∈ parameterPieces passing (typePieces plan.typeName), p.isInner = true := by
    refine forall_mem_append.mpr ⟨?_, isInner_of_isDotted hplan.typeName⟩
    exact forall_mem_cons.mpr ⟨isInner_of_isWritable hpassing, by decide⟩
  have hget : linesDeclare .code (getLines plan) = some ([accessorProfile plan .propertyGet], .code) := by
    refine linesDeclare_member ?_ (isEnd_getBody plan) hend
    refine runDeclares_propertyLine (by decide) hproperty (forall_mem_nil _) ?_
    intro text pos hat
    rw [resultType?_resultPieces hplan.typeName hat, flat_typePieces]
    rfl
  have hlet : linesDeclare .code (letLines plan) = some ([accessorProfile plan .propertyLet], .code) := by
    refine @linesDeclare_member _ _ _ _ [_] ?_
      (forall_mem_singleton.mpr (isEnd_assignPieces hplan.backing _ _)) hend
    refine runDeclares_propertyLine (by decide) hproperty (hinner _ ?_) fun _ _ _ => rfl
    split <;> exact isWritable_keyword (by decide)
  have hset : linesDeclare .code (setLines plan) = some ([accessorProfile plan .propertySet], .code) := by
    refine @linesDeclare_member _ _ _ _ [_] ?_ (forall_mem_singleton.mpr rfl) hend
    exact runDeclares_propertyLine (by decide) hproperty
      (hinner _ (isWritable_keyword (by decide))) fun _ _ _ => rfl
  have hcases : kind = .propertyGet ∨ kind = .propertyLet ∨ kind = .propertySet := by
    have hall : ∀ kind ∈ accessorKinds plan, kind ∈ accessorWords.map Prod.snd := by
      rw [accessorKinds]
      cases plan.readOnly <;> cases plan.storage <;> decide
    simpa [accessorWords] using hall kind hkind
  rcases hcases with rfl | rfl | rfl
  · exact hget
  · exact hlet
  · exact hset

end

/-! ## All accessors -/

/-- Blocks of lines with an empty line between them. -/
def spaced {α : Type} (blocks : List (List (List α))) : List (List α) := [[]].intercalate blocks

section

variable {α : Type} {block : List (List α)} {blocks : List (List (List α))}

theorem spaced_cons (hne : blocks ≠ []) : spaced (block :: blocks) = block ++ [] :: spaced blocks := by
  obtain ⟨next, blocks, rfl⟩ := exists_cons_of_ne_nil hne
  rw [spaced, intercalate_cons_cons, append_assoc]
  rfl

theorem map_spaced {β : Type} (f : List α → List β) (hf : f [] = []) (blocks : List (List (List α))) :
    (spaced blocks).map f = spaced (blocks.map (·.map f)) := by
  induction blocks with
  | nil => rfl
  | cons block blocks ih =>
    cases blocks with
    | nil => simp [spaced]
    | cons next blocks =>
      rw [spaced_cons (cons_ne_nil _ _), map_append, map_cons, hf, ih]
      exact (spaced_cons (cons_ne_nil _ _)).symm

theorem forall_mem_spaced {P : List α → Prop} (hnil : P [])
    (h : ∀ block ∈ blocks, ∀ line ∈ block, P line) : ∀ line ∈ spaced blocks, P line := by
  induction blocks with
  | nil => exact forall_mem_nil _
  | cons block blocks ih =>
    obtain ⟨hblock, hblocks⟩ := forall_mem_cons.mp h
    cases blocks with
    | nil => simpa [spaced] using hblock
    | cons next blocks =>
      rw [spaced_cons (cons_ne_nil _ _)]
      exact forall_mem_append.mpr ⟨hblock, forall_mem_cons.mpr ⟨hnil, ih hblocks⟩⟩

theorem spaced_ne_nil (hne : blocks ≠ []) (h : ∀ block ∈ blocks, block ≠ []) : spaced blocks ≠ [] := by
  obtain ⟨block, rest, rfl⟩ := exists_cons_of_ne_nil hne
  obtain ⟨line, lines, rfl⟩ := exists_cons_of_ne_nil (h block mem_cons_self)
  cases rest with
  | nil => simp [spaced]
  | cons next rest =>
    rw [spaced_cons (cons_ne_nil _ _)]
    exact cons_ne_nil _ _

/-- The texts of blocks, joined with an empty line between them, are those of all lines. -/
theorem intercalate_spaced {blocks : List (List Text)} (h : ∀ block ∈ blocks, block ≠ []) :
    (['\n', '\n'] : Text).intercalate (blocks.map (['\n'].intercalate ·)) =
      (['\n'] : Text).intercalate (spaced blocks) := by
  induction blocks with
  | nil => rfl
  | cons block blocks ih =>
    obtain ⟨hblock, hblocks⟩ := forall_mem_cons.mp h
    cases blocks with
    | nil => simp [spaced]
    | cons next blocks =>
      obtain ⟨line, lines, hlines⟩ :=
        exists_cons_of_ne_nil (spaced_ne_nil (cons_ne_nil next blocks) hblocks)
      rw [spaced_cons (cons_ne_nil _ _), intercalate_append_opened _ hblock, map_cons,
        map_cons, intercalate_cons_cons, ← map_cons, ih hblocks, hlines,
        intercalate_cons]
      simp [opened]

end

def accessorsOf (plans : List PropertyPlan) : List (PropertyPlan × DeclarationKind) :=
  plans.flatMap fun plan => (accessorKinds plan).map (plan, ·)

/-- What the accessors of all properties declare. -/
def accessorProfiles (plans : List PropertyPlan) : List Profile :=
  (accessorsOf plans).map fun accessor => accessorProfile accessor.1 accessor.2

/-- The accessors of all properties, by their lines. -/
def accessorBlocks (plans : List PropertyPlan) : List (List (List Piece)) :=
  (accessorsOf plans).map fun accessor => accessorLines accessor.1 accessor.2

section

theorem mem_accessorsOf {accessor : PropertyPlan × DeclarationKind} :
    accessor ∈ accessorsOf plans ↔ accessor.1 ∈ plans ∧ accessor.2 ∈ accessorKinds accessor.1 := by
  obtain ⟨plan, kind⟩ := accessor
  simp [accessorsOf]

theorem map_flat_accessorBlocks (plans : List PropertyPlan) :
    (accessorBlocks plans).map (·.map flat) = plans.flatMap accessors := by
  rw [accessorBlocks, accessorsOf, map_map, map_flatMap]
  congr 1
  funext plan
  rw [map_map, ← map_flat_accessorLines]
  rfl

theorem ne_nil_of_mem_accessorBlocks : ∀ block ∈ accessorBlocks plans, block ≠ [] := by
  refine forall_mem_map.mpr fun ⟨plan, kind⟩ _ => ?_
  cases kind <;> exact cons_ne_nil _ _

theorem accessorBlocks_ne_nil (hne : plans ≠ []) : accessorBlocks plans ≠ [] := by
  obtain ⟨plan, plans, rfl⟩ := exists_cons_of_ne_nil hne
  exact cons_ne_nil _ _

variable (hplans : ∀ plan ∈ plans, plan.Writable)

include hplans

theorem isWritten_spaced : ∀ line ∈ spaced (accessorBlocks plans), isWritten line = true := by
  refine forall_mem_spaced rfl ?_
  refine forall_mem_map.mpr fun accessor haccessor => ?_
  exact isWritten_accessorLines (hplans accessor.1 (mem_accessorsOf.mp haccessor).1) accessor.2

theorem linesDeclare_spaced :
    linesDeclare .code (spaced (accessorBlocks plans)) = some (accessorProfiles plans, .code) := by
  have hall : ∀ accessor ∈ accessorsOf plans, linesDeclare .code (accessorLines accessor.1 accessor.2) =
      some ([accessorProfile accessor.1 accessor.2], .code) := by
    intro accessor haccessor
    obtain ⟨hplan, hkind⟩ := mem_accessorsOf.mp haccessor
    exact linesDeclare_accessorLines (hplans accessor.1 hplan) hkind
  rw [accessorBlocks, accessorProfiles]
  generalize accessorsOf plans = accessors at hall ⊢
  induction accessors with
  | nil => rfl
  | cons accessor accessors ih =>
    obtain ⟨hfirst, hrest⟩ := forall_mem_cons.mp hall
    cases accessors with
    | nil => simpa [spaced] using hfirst
    | cons next accessors =>
      have hempty : runDeclares .code [] = some ([], .code) := rfl
      rw [map_cons, spaced_cons (by simp)]
      refine linesDeclare_append hfirst ?_
      rw [linesDeclare_cons hempty, ih hrest]
      rfl

end

/-! ## The text that is inserted -/

/-- The texts of all accessors with empty lines between them. -/
def accessorsText (plans : List PropertyPlan) : Text :=
  (['\n', '\n'] : Text).intercalate ((plans.flatMap accessors).map fun lines => ['\n'].intercalate lines)

section

variable {lines : List (List Piece)}

theorem accessorsText_eq (plans : List PropertyPlan) :
    accessorsText plans = (['\n'] : Text).intercalate ((spaced (accessorBlocks plans)).map flat) := by
  rw [map_spaced flat rfl, map_flat_accessorBlocks, accessorsText, intercalate_spaced]
  rw [← map_flat_accessorBlocks]
  refine forall_mem_map.mpr fun lines hlines => ?_
  simpa using ne_nil_of_mem_accessorBlocks lines hlines

theorem plain_of_isWritten_lines (h : ∀ line ∈ lines, isWritten line = true) :
    ∀ line ∈ lines.map flat, Plain line := by
  exact forall_mem_map.mpr fun ps hps => plain_of_isWritten (h ps hps)

theorem splitLines_of_isWritten (hne : lines ≠ []) (h : ∀ line ∈ lines, isWritten line = true) :
    splitLines ((['\n'] : Text).intercalate (lines.map flat)) = lines.map flat :=
  splitLines_intercalate (.inl rfl)
    (fun line hline => (plain_of_isWritten_lines h line hline).oneLine) (by simpa using hne)

/-- The lines of accessors before a member, with an empty line behind each of them. -/
def linesBefore (plans : List PropertyPlan) : List (List Piece) := spaced (accessorBlocks plans) ++ [[]]

/-- The lines of accessors at the end, with an empty line before each of them. -/
def linesBehind (plans : List PropertyPlan) : List (List Piece) := [] :: spaced (accessorBlocks plans)

variable (hplans : ∀ plan ∈ plans, plan.Writable)

include hplans

theorem isWritten_linesBefore : ∀ line ∈ linesBefore plans, isWritten line = true :=
  forall_mem_append.mpr ⟨isWritten_spaced hplans, forall_mem_singleton.mpr rfl⟩

theorem isWritten_linesBehind : ∀ line ∈ linesBehind plans, isWritten line = true :=
  forall_mem_cons.mpr ⟨rfl, isWritten_spaced hplans⟩

theorem linesDeclare_linesBefore :
    linesDeclare .code (linesBefore plans) = some (accessorProfiles plans, .code) := by
  have hempty : linesDeclare .code [[]] = some ([], .code) := rfl
  have hall := linesDeclare_append (linesDeclare_spaced hplans) hempty
  rwa [append_nil] at hall

theorem linesDeclare_linesBehind :
    linesDeclare .code (linesBehind plans) = some (accessorProfiles plans, .code) := by
  have hempty : runDeclares .code [] = some ([], .code) := rfl
  rw [linesBehind, linesDeclare_cons hempty, linesDeclare_spaced hplans]
  rfl

variable (hne : plans ≠ [])

include hne

theorem splitLines_before :
    splitLines (accessorsText plans ++ ['\n']) = (linesBefore plans).map flat := by
  have hsome : (spaced (accessorBlocks plans)).map flat ≠ [] := by
    simpa using spaced_ne_nil (accessorBlocks_ne_nil hne) ne_nil_of_mem_accessorBlocks
  have hjoined : accessorsText plans ++ ['\n'] =
      (['\n'] : Text).intercalate ((linesBefore plans).map flat) := by
    rw [accessorsText_eq, linesBefore, map_append, intercalate_append_opened _ hsome]
    rfl
  rw [hjoined, splitLines_of_isWritten (by simp [linesBefore]) (isWritten_linesBefore hplans)]

theorem splitLines_behind :
    splitLines ('\n' :: accessorsText plans) = (linesBehind plans).map flat := by
  have hsome : (spaced (accessorBlocks plans)).map flat ≠ [] := by
    simpa using spaced_ne_nil (accessorBlocks_ne_nil hne) ne_nil_of_mem_accessorBlocks
  have hjoined : '\n' :: accessorsText plans =
      (['\n'] : Text).intercalate ((linesBehind plans).map flat) := by
    obtain ⟨line, lines, hlines⟩ := exists_cons_of_ne_nil hsome
    rw [accessorsText_eq, linesBehind, map_cons, hlines, intercalate_cons_cons]
    rfl
  rw [hjoined, splitLines_of_isWritten (by simp [linesBehind]) (isWritten_linesBehind hplans)]

end

end Encapsulate

end VbaRefactor
